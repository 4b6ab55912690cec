import ClassWeave.Build.Script
import ClassWeave.Main
import ClassWeave.Proofs.CodeRoundTrip
import ClassWeave.Proofs.Hierarchies
import ClassWeave.Proofs.ClassOrder
import ClassWeave.Proofs.SlotRequests
import ClassWeave.Proofs.Injections
import ClassWeave.Proofs.PathSoundness
import ClassWeave.Proofs.ClassCodec
import ClassWeave.Proofs.MethodRoundTrip
import ClassWeave.Proofs.Edits
import ClassWeave.Proofs.LineNumbers
import ClassWeave.Proofs.Termination
import ClassWeave.Proofs.Counts
import ClassWeave.Proofs.ClassRoundTrip
import ClassWeave.Proofs.DeadCode
import ClassWeave.Proofs.Acceptance
import ClassWeave.Proofs.CodeCeilings
import ClassWeave.Proofs.EncodedFrames
import ClassWeave.Proofs.FramePoints
import ClassWeave.Proofs.FrameTables
import ClassWeave.Proofs.FreshObjects
import ClassWeave.Proofs.SearchOrder
import ClassWeave.Proofs.Requests
import ClassWeave.Proofs.ClassFormat
import ClassWeave.Proofs.Blocks
import ClassWeave.Proofs.Branches
import ClassWeave.Proofs.IntCode
import ClassWeave.Proofs.Findings
import ClassWeave.Proofs.FrameChecks
import ClassWeave.Proofs.Verified
import ClassWeave.Proofs.PoolRequests
import ClassWeave.Proofs.WholeLocals
import ClassWeave.Proofs.LiveObjects
import ClassWeave.Proofs.Recoding
import ClassWeave.Proofs.LabelBooks
import ClassWeave.Proofs.RenamedScripts
import ClassWeave.Proofs.Expressions
import ClassWeave.Proofs.GuardedRuns
import ClassWeave.Proofs.ScratchLocals
import ClassWeave.Proofs.Merging
import ClassWeave.Proofs.ExceptionTables
import ClassWeave.Proofs.ExportPaths
import ClassWeave.Proofs.JumpLayouts
import ClassWeave.Proofs.FrameJoins
import ClassWeave.Proofs.SlotVectors
import ClassWeave.Proofs.NormalForm
