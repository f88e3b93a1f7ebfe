import CilSsa.Main
import CilSsa.Metadata.Summary
import CilSsa.Passes.Loops
import CilSsa.Proofs.Resolution
import CilSsa.Proofs.IntegerMethods
import CilSsa.Proofs.OptimizedMethods
import CilSsa.Proofs.Caching
import CilSsa.Proofs.Decoding
import CilSsa.Proofs.Construction
import CilSsa.Proofs.Dominance
import CilSsa.Proofs.PassMeaning
import CilSsa.Proofs.Listing
import CilSsa.Proofs.ImageMembers
import CilSsa.Proofs.OperandResolution
import CilSsa.Proofs.FiniteLayouts
import CilSsa.Proofs.TypeGraph
import CilSsa.Proofs.TypeRequests
import CilSsa.Proofs.ImageCodec
import CilSsa.Proofs.NumberedCalls
import CilSsa.Proofs.Isolation
import CilSsa.Proofs.BlockDiscovery
import CilSsa.Proofs.IntegerConversions
import CilSsa.Proofs.BodyStages
import CilSsa.Proofs.SlotReads
import CilSsa.Proofs.BitVectors
import CilSsa.Proofs.FailedConversions
import CilSsa.Proofs.BlockEntries
import CilSsa.Proofs.BlockExchanges
import CilSsa.Proofs.JoinTypes
import CilSsa.Proofs.Evidence
import CilSsa.Proofs.StepRuns
import CilSsa.Proofs.VariableRuns
import CilSsa.Proofs.OptimizedCalls
import CilSsa.Proofs.VerifiedRuns
import CilSsa.Proofs.NaturalLoops
import CilSsa.Proofs.Folding
import CilSsa.Proofs.ByteMap
import CilSsa.Proofs.StoredValues
import CilSsa.Proofs.StructMembers
import CilSsa.Proofs.BufferRoom
import CilSsa.Proofs.LayoutHistory
import CilSsa.Proofs.PackedLayouts
import CilSsa.Proofs.ImportOrder
import CilSsa.Proofs.KeyInputs
import CilSsa.Proofs.InstructionBytes
import CilSsa.Proofs.InstanceMembers
import CilSsa.Proofs.TypeNames
import CilSsa.Proofs.TraceSpans
import CilSsa.Proofs.LocalNames
import CilSsa.Proofs.SymbolNames
import CilSsa.Proofs.MethodNames
import CilSsa.Proofs.Rejections
import CilSsa.Proofs.StackDepth
