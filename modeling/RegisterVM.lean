import RegisterVM.Binary64
import RegisterVM.Dataflow.Analysis
import RegisterVM.Dataflow.Liveness
import RegisterVM.Dataflow.Reach
import RegisterVM.Dataflow.Roles
import RegisterVM.Decimal.Shortest
import RegisterVM.Decimal.Text
import RegisterVM.ErrorCode
import RegisterVM.Heap.Arith
import RegisterVM.Heap.Basic
import RegisterVM.Heap.Element
import RegisterVM.Heap.Equality
import RegisterVM.Heap.Object
import RegisterVM.Heap.Shape
import RegisterVM.Heap.Slots
import RegisterVM.Heap.Strings
import RegisterVM.Heap.Text
import RegisterVM.Heap.View
import RegisterVM.IndexRange.Basic
import RegisterVM.IndexRange.Marks
import RegisterVM.IndexRange.Set
import RegisterVM.Instruction
import RegisterVM.Kind
import RegisterVM.Lifecycle
import RegisterVM.Machine.Image
import RegisterVM.Machine.Loop
import RegisterVM.Machine.Place
import RegisterVM.Machine.State
import RegisterVM.Machine.Step
import RegisterVM.Native.Assigned
import RegisterVM.Native.Backend
import RegisterVM.Native.Builtin
import RegisterVM.Native.Code
import RegisterVM.Native.Config
import RegisterVM.Native.Error
import RegisterVM.Native.Exec
import RegisterVM.Native.Layout
import RegisterVM.Native.Lower
import RegisterVM.Native.Plan
import RegisterVM.Native.Sequences
import RegisterVM.Opcode.Basic
import RegisterVM.Opcode.Layout
import RegisterVM.Opcode.Table
import RegisterVM.Random.Generator
import RegisterVM.Random.Keystream
import RegisterVM.RegSet
import RegisterVM.Routine
import RegisterVM.Scalar.Complex
import RegisterVM.Scalar.Integer
import RegisterVM.Scalar.MathFn
import RegisterVM.Scalar.Number
import RegisterVM.Scalar.Unary
import RegisterVM.Segment.Classify
import RegisterVM.Segment.Finder
import RegisterVM.Session
import RegisterVM.Text.Printable
import RegisterVM.Text.Quoted
import RegisterVM.Text.Utf8
import RegisterVM.Value
import RegisterVM.ValueType
import RegisterVM.Words
import RegisterVM.Proofs.CheckedCode
import RegisterVM.Proofs.RangeFamily
import RegisterVM.Proofs.SegmentRounds
import RegisterVM.Proofs.SoundRange
import RegisterVM.Proofs.SegmentFinder
import RegisterVM.Proofs.Alike
import RegisterVM.Proofs.HeapAlike
import RegisterVM.Proofs.Liveness
import RegisterVM.Proofs.RegisterSets
import RegisterVM.Proofs.ExecAlike
import RegisterVM.Proofs.StepAlike
import RegisterVM.Proofs.RegisterAccesses
import RegisterVM.Proofs.DeadRegisters
import RegisterVM.Proofs.Reachability
import RegisterVM.Proofs.SegmentPlan
import RegisterVM.Proofs.Lowering
import RegisterVM.Proofs.Compilation
import RegisterVM.Proofs.Conformance
import RegisterVM.Proofs.InstructionSequences
import RegisterVM.Proofs.Variables
import RegisterVM.Proofs.CompiledEffect
import RegisterVM.Proofs.CompiledStep
import RegisterVM.Proofs.SegmentRun
import RegisterVM.Proofs.Installation
import RegisterVM.Proofs.SegmentStep
import RegisterVM.Proofs.Transparency
import RegisterVM.Proofs.RegisterEffects
import RegisterVM.Proofs.ScalarAccess
import RegisterVM.Proofs.StepSafety
import RegisterVM.Proofs.Placement
import RegisterVM.Proofs.SegmentSafety
import RegisterVM.Proofs.EmittedRegisters
import RegisterVM.Proofs.OperandWidth
import RegisterVM.Proofs.ArrayInvariants
import RegisterVM.Proofs.ArrayData
import RegisterVM.Proofs.ElementKinds
import RegisterVM.Proofs.CompiledAccess
import RegisterVM.Proofs.Lifetime
import RegisterVM.Proofs.ReferenceCounts
import RegisterVM.Proofs.Settling
import RegisterVM.Proofs.CountedOperations
import RegisterVM.Proofs.Slots
import RegisterVM.Proofs.SlotOperations
import RegisterVM.Proofs.FailedSteps
import RegisterVM.Proofs.ShapeLayout
import RegisterVM.Proofs.ArrayShapes
import RegisterVM.Proofs.ArrayOperations
import RegisterVM.Proofs.AccessBounds
import RegisterVM.Proofs.DataflowPaths
import RegisterVM.Proofs.DirectDefinitions
import RegisterVM.Proofs.PlannedExits
import RegisterVM.Proofs.RangeSets
import RegisterVM.Proofs.DisjointRanges
import RegisterVM.Proofs.SegmentLoop
import RegisterVM.Proofs.SegmentRefinement
import RegisterVM.Proofs.StepBounds
import RegisterVM.Proofs.RowMajor
import RegisterVM.Proofs.PackedElements
import RegisterVM.Proofs.Materialization
import RegisterVM.Proofs.MultiIndexing
import RegisterVM.Proofs.ElementwiseArithmetic
import RegisterVM.Proofs.ArrayAssignment
import RegisterVM.Proofs.Odometer
import RegisterVM.Proofs.OperationInvariants
import RegisterVM.Proofs.ViewPersistence
import RegisterVM.Proofs.WindowExtraction
