import RubyEngine.SortedMap
import RubyEngine.Bytes
import RubyEngine.Framing
import RubyEngine.Json.Document
import RubyEngine.Json.Numbers
import RubyEngine.Json.Text
import RubyEngine.Json.Render
import RubyEngine.Json.Length
import RubyEngine.Json.Parser
import RubyEngine.Json.Utf8
import RubyEngine.Serde
import RubyEngine.Serde.Reference
import RubyEngine.Serde.Floats
import RubyEngine.Protocol
import RubyEngine.Transport
import RubyEngine.Serde.Documented
import RubyEngine.Transport.ReaderRefinement
import RubyEngine.Transport.Lossless
import RubyEngine.Transition
import RubyEngine.Transition.Liveness
import RubyEngine.Transition.Composition
import RubyEngine.Supervisor
import RubyEngine.Supervisor.Steps
import RubyEngine.Supervisor.Streams
import RubyEngine.Supervisor.Capability
import RubyEngine.Supervisor.Relay
import RubyEngine.Main
import RubyEngine.Main.Output
import RubyEngine.Guest.Tree
import RubyEngine.Guest.TreeDecode
import RubyEngine.Guest.Heap
import RubyEngine.Guest.Unfolding
import RubyEngine.Guest.Encode
import RubyEngine.Guest.EncodeCorrect
import RubyEngine.Guest.EncodeText
import RubyEngine.Guest.Result
import RubyEngine.Guest.HostCall
import RubyEngine.EditDistance
import RubyEngine.Guest.Suggestions
import RubyEngine.Guest.Allocator
import RubyEngine.Guest.Run
import RubyEngine.Guest.Native
import RubyEngine.Guest.JsonHelpers
import RubyEngine.Client
import RubyEngine.Client.Values
import RubyEngine.Client.Execute
import RubyEngine.Client.Privacy
import RubyEngine.Client.Turns
import RubyEngine.Client.Safety
import RubyEngine.Guest.LogBudget
import RubyEngine.Bpf
import RubyEngine.Isolation
import RubyEngine.Bytecode
import RubyEngine.Guest.Admission
import RubyEngine.Guest.Dispatch
import RubyEngine.Guest.Frames
import RubyEngine.Isolation.Enter
import RubyEngine.Guest.Process
import RubyEngine.Guest.Process.Steps
import RubyEngine.Guest.Process.Discipline
import RubyEngine.Guest.Process.Pace
import RubyEngine.Supervisor.Disconnect
import RubyEngine.Supervisor.Replies
import RubyEngine.Supervisor.World
import RubyEngine.Supervisor.Death.Invariant
import RubyEngine.Supervisor.Death.Progress
import RubyEngine.Supervisor.Death
import RubyEngine.Main.Identity
import RubyEngine.Protocol.Delivery
import RubyEngine.System
import RubyEngine.System.Schedule
import RubyEngine.System.Streams
import RubyEngine.System.Invariant
import RubyEngine.System.Runs
import RubyEngine.System.Faults
import RubyEngine.System.Agreement
import RubyEngine.System.Quiescence
import RubyEngine.System.Protocol
import RubyEngine.Client.Fidelity
import RubyEngine.Client.Failures
