import CilSsa.Text.Ranges

namespace CilSsa.Terminal

open CilSsa.Text

def hiddenRanges : Ranges := Ranges.ofGaps <| " ".intercalate
  ["0 v 2n w d 0 19d 0 3cr 3 1ks 4 o 6 1n 5 17yn 0 6x 2 2 1"]

def combiningRanges : Ranges := Ranges.ofGaps <| " ".intercalate
  ["lc 33 7n 4 o3 8 ss 0 3 0 6m 0 c 1 197 2 1en 0 1c u 4c 8 gc 1r k0 w 2da 2 6m v ih 1 n9w 3 1 9 w 1 28",
   "1 dq h gtq f r1 0 ag 4 27k 1 49 a 1d 3 oq 1 1l 1 15 6 3 4 ha3 4 jrf 19 2 m f2 4 3 5 8 7 2 6 u 3 44 2",
   "2pn 6 1 g 2 6 1 1 1 4 2s 0 1mo 6"]

def wideRanges : Ranges := Ranges.ofGaps <| " ".intercalate
  ["3cw 2n 3i2 1 d 1 5a 3 3 0 2 0 eh 1 l 1 q 7 g b 17 0 a 5 3 0 d 0 8 1 h 1 5 1 8 0 5 0 l 0 7 1 1 0 4 0",
   "2 0 7 0 4 1 s 0 z 0 1 0 4 2 1 0 1p 2 o 0 e 0 nv 1 1f 0 4 0 mi p 1 2g c 5x q 26 2 2d 2 2u 5 16 1 2l 1",
   "2d 9 1b 1 13 8 mkc 3 1i wp s hv 8mb 6l8 e7 ls 9 m y 1 i 1 3 45 2n 3j 6 m49 4 b 1 e 4qf 8 yd 15 9 6w7",
   "3 1 6 1 1 1 82 f 0 t 2 2 0 e 3 8 az 6bo 2e 9 m 5n1 0 5m 0 5a 0 2 9 2t 2 d 17 4 8 7 1 e 5 4a w c 8 1",
   "1x 1 l c 16 4 4 c g 3 0 3 1y 1 0 1 56 2 1q d 3 1 n i 0 q 1 d 0 2e 2c 1c 1x 6 0 3 2 2 2 4 3 b 1 7 8",
   "6b b 4 0 7v 1a 1 9 1 54 34 c 3 9 5 1j 7 e 2 a 6 8 zr 1ekd 2 1ekd"]

def attachingRanges : Ranges := Ranges.ofGaps <| " ".intercalate
  ["lc 33 7n 6 7b 18 1 0 1 1 1 1 1 0 20 a 1c k g 0 2t 6 2 5 2 1 1 3 z 0 u q 2j a 1m 8 9 0 o 3 1 8 1 2 1",
   "4 17 2 1n 8 16 n 1 w 1i 2 1 h 1 6 a 1 t 2 1k 0 1 6 2 1 2 2 9 0 a 1 q 0 2 2 1k 0 1 4 4 1 2 2 3 0 u 1",
   "3 0 b 2 1k 0 1 7 1 2 1 2 k 1 m 5 1 2 1k 0 1 6 2 1 2 2 7 2 a 1 u 0 1n 4 3 2 1 3 9 0 14 4 1j 0 1 6 1 2",
   "1 3 7 1 b 1 t 2 1k 0 1 6 1 2 1 3 7 1 b 1 f 0 c 3 1j 1 1 6 1 2 1 3 9 0 a 1 t 2 1y 0 4 5 1 0 1 7 i 1",
   "1p 0 1 7 c 7 2q 0 1 9 b 6 21 1 r 0 1 0 1 0 4 1 1d j 1 1 5 a 1 z 9 0 2u a 1 5 n 3 4 2 g 3 d 0 1 2 6 0",
   "f 0 jj 2 qa 3 s 2 t 1 u 1 1s v 9 0 19 2 1 0 39 1 y 0 3a b 4 b 63 4 1l 9 1 0 1 0 2 n 2 0 1c u 1d 4 1b",
   "g 12 8 c 2 u c 1k d 1c j 48 2 1 k 4 0 6 0 2 2 5i 1r ek 1 5e w 2da 2 3x 0 2o v fe 5 2x 1 n9w 3 1 9 w",
   "1 28 1 7k 0 3 0 4 0 n 4 4 0 2b 1 1e h q h d 0 12 7 p c 18 3 1b d 10 0 1v d c 0 8 1 1a 0 1f 0 1 2 2 1",
   "5 1 1 0 15 4 5 1 6k 7 1 1 fn4 0 kh f g f a6 1 gt 0 6a 0 45 4 1ae 2 1 1 5 3 14 2 4 0 4l 1 fx 3 1t 4",
   "8t 1 27 3 1y a 1d 3 3e 2 1h e 15 0 2 1 a 3 19 a 7 0 1p 2 10 d g 1 18 0 c 2 1c d 8 3 1 1 2k b 6 0 2 0",
   "4d b l 3 1j 1 1 6 2 1 2 2 9 0 a 1 2 6 3 4 1v 8 1 0 2 0 1 3 1 4 1 0 e 1 2a h n 0 29 j 6j 6 2 8 r 1 2a",
   "g 2y c 2t 2 2 9 74 e 6t 5 1 1 2 3 1 0 1 1 3x 6 2 6 3 0 s 9 14 6 1 3 8 0 9 a 1a f b9 7 1 7 2a l 1 d",
   "3e 5 3 0 1 1 1 6 1 0 1u 4 1 1 1 4 9n 3 9 1 1 0 1c 6 3 4 n 0 44l 0 6 e 8ug h 1xc 4 1n 6 t4 0 1 1i 7 3",
   "29 0 b 1 f57 1 3mp 19 2 m f2 4 3 5 8 7 2 6 u 3 44 2 1iz 1i 4 1d 8 0 e 0 m 4 1 e 11s 6 1 g 2 6 1 1 1",
   "4 2s 0 4g 6 af 0 1p 3 e4 3 72 1 kg 6 31 6 240 4 gx7k 2n 3k 6n"]

def pictureRanges : Ranges := Ranges.ofGaps <| " ".intercalate
  ["4p 0 4 0 68d 0 c 0 60 0 m 0 2i 5 f 1 a7 1 c 0 2n 0 1y 0 p a 4 2 5j 0 6f 1 a 0 9 0 1m 3 1 5 1 b 1 35",
   "a 39 2 a 1 0 1 0 6 0 3 0 6 0 a 1 f 0 2 0 4 0 1 0 4 2 1 0 b 4 19 2 9 0 e 0 e 0 ac 1 cv 2 j 1 1f 0 4 0",
   "yi 0 c 0 gp 0 1 0 2fza 73 d 2 v 0 1o 5 c 1 e 0 2 9 i 1k r e a 0 k 0 2 8 1 3 9 c1 5 8t 8 7d 1c 3j 38",
   "b 2d 16 c 3 1k 7 a 5 14 7 u 29 c 1a 1 9 1 c8 74 sd"]

def cellsOf (c : Char) : Nat :=
  if hiddenRanges.contains c then 0
  else if c.toNat < 0x300 then 1
  else if combiningRanges.contains c then 0
  else if wideRanges.contains c then 2
  else 1

/-- The parts of a syllable block: a leading consonant, a vowel, a trailing consonant, and whole blocks that are open
or closed. -/
inductive Jamo
  | lead | vowel | trail | openBlock | closedBlock
deriving DecidableEq

def jamo? (c : Char) : Option Jamo :=
  let n := c.toNat
  if (0x1100 ≤ n ∧ n ≤ 0x115F) ∨ (0xA960 ≤ n ∧ n ≤ 0xA97C) then some .lead
  else if (0x1160 ≤ n ∧ n ≤ 0x11A7) ∨ (0xD7B0 ≤ n ∧ n ≤ 0xD7C6) then some .vowel
  else if (0x11A8 ≤ n ∧ n ≤ 0x11FF) ∨ (0xD7CB ≤ n ∧ n ≤ 0xD7FB) then some .trail
  else if 0xAC00 ≤ n ∧ n ≤ 0xD7A3 then some (if (n - 0xAC00) % 28 = 0 then .openBlock else .closedBlock)
  else none

def Jamo.joins : Jamo → Jamo → Bool
  | .lead, .trail => false
  | .lead, _ => true
  | .vowel, .vowel | .vowel, .trail | .openBlock, .vowel | .openBlock, .trail => true
  | .trail, .trail | .closedBlock, .trail => true
  | _, _ => false

def isFlagLetter (c : Char) : Bool := 0x1F1E6 ≤ c.toNat && c.toNat ≤ 0x1F1FF

def joiner : Char := Char.ofNat 0x200D

/-- Whether a character belongs to the cluster before it, whose characters are given in reverse. -/
def continues (cluster : List Char) (c : Char) : Bool :=
  match cluster with
  | [] => false
  | last :: before =>
    if hiddenRanges.contains last && !attachingRanges.contains last then false
    else if attachingRanges.contains c then true
    else if last = joiner then
      pictureRanges.contains c && ((before.dropWhile attachingRanges.contains).head?.any pictureRanges.contains)
    else if isFlagLetter c && isFlagLetter last then before.isEmpty
    else match jamo? last, jamo? c with
      | some a, some b => a.joins b
      | _, _ => false

def clustersFrom (cluster : List Char) : List Char → List (List Char)
  | [] => if cluster.isEmpty then [] else [cluster.reverse]
  | c :: cs =>
    if continues cluster c then clustersFrom (c :: cluster) cs
    else (if cluster.isEmpty then [] else [cluster.reverse]) ++ clustersFrom [c] cs

def clusters (cs : List Char) : List (List Char) := clustersFrom [] cs

def clusterCells (cluster : List Char) : Nat := ((cluster.map cellsOf).find? (0 < ·)).getD 0

def textCells (s : String) : Nat := (clusters s.toList).foldr (fun c n ↦ clusterCells c + n) 0

def fitting (room : Int) : List (List Char) → List Char
  | [] => []
  | c :: cs => if room < clusterCells c then [] else c ++ fitting (room - clusterCells c) cs

/-- A text that is too wide is cut, and ends in dots if there is room for them. -/
def truncate (width : Int) (s : String) : String :=
  if width ≤ 0 ∨ (textCells s : Int) ≤ width then s
  else
    let tail := if width ≤ 3 then "" else "..."
    String.ofList (fitting (width - textCells tail) (clusters s.toList)) ++ tail

end CilSsa.Terminal
