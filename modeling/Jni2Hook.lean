import Jni2Hook.ClassFile.RoundTrip
import Jni2Hook.ClassFile.SerializeBuffer
import Jni2Hook.Code.ControlFlow
import Jni2Hook.Code.StoredBytes
import Jni2Hook.Hook.InsertOrder
import Jni2Hook.Hook.RebuiltBodies
import Jni2Hook.Hook.ClassCapture
import Jni2Hook.Hook.InstalledHooks
import Jni2Hook.Hook.RebuiltExecution
import Jni2Hook.Hook.Trampoline
import Jni2Hook.Hook.MethodLayout
import Jni2Hook.Hook.NamedWatch
import Jni2Hook.Hook.PatternWatch
import Jni2Hook.Hook.Redefinition
import Jni2Hook.Hook.SuspendWindow
import Jni2Hook.Lib.Flow
import Jni2Hook.Lib.Transition
import Jni2Hook.Lib.X64
import Jni2Hook.Lib.Weave
import Jni2Hook.Remap.DescriptorBuffer
import Jni2Hook.Remap.MappedDescriptors
import Jni2Hook.Remap.RuntimeOwner
import Jni2Hook.Transform.ForwardedArguments
import Jni2Hook.Transform.Preservation
import Jni2Hook.Transform.ScarceMemory
import Jni2Hook.Code.ConstructorTrace
import Jni2Hook.Code.RepeatedInsertion
import Jni2Hook.Code.Execution
import Jni2Hook.Code.TypedInsertion
import Jni2Hook.Transform.InsertedCall
import Jni2Hook.Code.AbsoluteFrames
import Jni2Hook.Code.DecodingRange
import Jni2Hook.Code.FrontInsertion
import Jni2Hook.Code.InsertFailure
import Jni2Hook.Code.SlotEffects
import Jni2Hook.Code.TraceExact
import Jni2Hook.Code.TypeAnnotationGrammar
import Jni2Hook.Hook.FieldScan
import Jni2Hook.Hook.WatchNotification
import Jni2Hook.Remap.EmptyRemap
import Jni2Hook.Transform.DescriptorSlots
import Jni2Hook.Transform.GuardFlow
import Jni2Hook.Transform.GuardFrames
import Jni2Hook.Transform.GuardOverrun
import Jni2Hook.Transform.GuardValues
import Jni2Hook.Transform.HookRoundTrip
import Jni2Hook.Transform.InsertionPoint
import Jni2Hook.Transform.InternRuns
import Jni2Hook.Transform.ConstructorAnalysis
import Jni2Hook.Transform.CallExecution
import Jni2Hook.Transform.ConstructorHooks
import Jni2Hook.Code.InstructionLayout
import Jni2Hook.Remap.DescriptorSubstitution
import Jni2Hook.Remap.MethodTypes
import Jni2Hook.Transform.EntryFrame
import Jni2Hook.Hook.LockProtocol
