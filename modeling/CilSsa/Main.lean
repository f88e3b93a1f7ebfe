import CilSsa.Command.Tool
import Std.Time

namespace CilSsa.Command

open CilSsa.Files CilSsa.Text

/-- The paths that arguments may name: an argument, or the value behind its `=`. -/
def namedPaths (args : List String) : List String :=
  args ++ args.filterMap fun a ↦ (cut a "=").map (·.2)

/-- A file store with what is at a path and the directories on the way to it. -/
def lookAt (s : FileStore) (path : String) : IO FileStore := do
  let mut s := s
  let whole := s.absolute path
  for d in ancestors whole.length whole do
    if (← ((← IO.currentDir) / d).isDir) && !s.dirs.contains d then s := { s with dirs := d :: s.dirs }
  match ← (IO.FS.readBinFile whole).toBaseIO with
  | .ok bs => return { s with files := (whole, bs.toList) :: s.files.filter (·.1 ≠ whole) }
  | .error _ => return s

def lookAtCache (s : FileStore) (dir : String) : IO FileStore := do
  let entries := s.absolute (Pipeline.DiskCache.mk dir).entryDir
  let dir := (← IO.currentDir) / entries
  if !(← dir.isDir) then return s
  (← dir.readDir).foldlM (fun s e ↦ lookAt s (join entries e.fileName)) s

def surroundings (env : Environment) (args : List String) : IO FileStore := do
  let cwd := (← IO.currentDir).toString
  let manifests := (ancestors cwd.length cwd).map (join · manifestName)
  let s ← (manifests ++ namedPaths args).foldlM lookAt { cwd }
  let told := ((Manifest.discover s cwd).toOption.map (·.cacheDir)).toList
  let caches := (defaultCacheDir env).toOption.toList ++ told ++ namedPaths args
  (caches.filter (· ≠ "")).foldlM lookAtCache s

def leave (before after : FileStore) : IO Unit := do
  for d in after.dirs do
    if !before.dirs.contains d then IO.FS.createDirAll d
  for (p, bs) in after.files do
    if before.files.lookup p ≠ some bs then IO.FS.writeBinFile p (ByteArray.mk bs.toArray)
  for (p, _) in before.files do
    if (after.files.lookup p).isNone then IO.FS.removeFile p

def Environment.current : IO Environment := do
  let variable' (name : String) := return (← IO.getEnv name).getD ""
  let now ← Std.Time.Timestamp.now
  return {
    optimize := ← variable' optimizeVariable
    cacheHome := ← variable' "XDG_CACHE_HOME"
    home := ← variable' "HOME"
    stdoutIsTerminal := ← (← IO.getStdout).isTty
    stderrIsTerminal := ← (← IO.getStderr).isTty
    now := (Std.Time.DateTime.ofTimestamp now .UTC).toISO8601String }

end CilSsa.Command

open CilSsa.Command in
def main (args : List String) : IO UInt32 := do
  let env ← Environment.current
  let before ← surroundings env args
  let outcome := runTool env before args
  leave before outcome.files
  (← IO.getStdout).putStr outcome.stdout
  (← IO.getStderr).putStr outcome.stderr
  return outcome.exit.toUInt32
