import VirtualProcessor.Assembly
import VirtualProcessor.Assembly.Resolver
import VirtualProcessor.CommandLine.Session
import VirtualProcessor.Device
import VirtualProcessor.FileTree
import VirtualProcessor.Machine.Run
import VirtualProcessor.Main
import VirtualProcessor.Program.Carrier
import VirtualProcessor.Program.Listing
import VirtualProcessor.Program.Storage
import VirtualProcessor.Text.Quoted
import VirtualProcessor.Proofs.Machine.Action
import VirtualProcessor.Proofs.Machine.Attempt
import VirtualProcessor.Proofs.Machine.Schedule
import VirtualProcessor.Proofs.Machine.Run
import VirtualProcessor.Proofs.Machine.Budget
import VirtualProcessor.Proofs.Arena.Blocks
import VirtualProcessor.Proofs.Arena.Heap
import VirtualProcessor.Proofs.Text.Fields
import VirtualProcessor.Proofs.Coding.Base64
import VirtualProcessor.Proofs.Coding.Bytes
import VirtualProcessor.Proofs.Program.Carrier
import VirtualProcessor.Proofs.Program.Storage
import VirtualProcessor.Proofs.Machine.Trouble
import VirtualProcessor.Proofs.Machine.Watchdog
import VirtualProcessor.Proofs.Assembly.Alias
import VirtualProcessor.Proofs.Assembly.Expansion
import VirtualProcessor.Proofs.Assembly.Form
import VirtualProcessor.Proofs.Number.Word
import VirtualProcessor.Proofs.Assembly.Label
import VirtualProcessor.Proofs.Assembly.Passes
import VirtualProcessor.Proofs.Assembly.Account
import VirtualProcessor.Proofs.Machine.Link
import VirtualProcessor.Proofs.Machine.Jump
import VirtualProcessor.Proofs.Assembly.Target
import VirtualProcessor.Proofs.Assembly.Spacing
import VirtualProcessor.Proofs.Machine.Host
import VirtualProcessor.Proofs.Machine.LifeCycle
import VirtualProcessor.Proofs.Machine.Trace
import VirtualProcessor.Proofs.Machine.Release
import VirtualProcessor.Proofs.Machine.Steady
import VirtualProcessor.Proofs.Number.Order
import VirtualProcessor.Proofs.Arena.FirstFit
import VirtualProcessor.Proofs.Machine.Landing
import VirtualProcessor.Proofs.Assembly.Trailing
import VirtualProcessor.Proofs.Device.Access
import VirtualProcessor.Proofs.Assembly.Walk
import VirtualProcessor.Proofs.Assembly.Inlining
import VirtualProcessor.Proofs.Assembly.Substitution
import VirtualProcessor.Proofs.Machine.Failure
import VirtualProcessor.Proofs.Assembly.Wording
import VirtualProcessor.Proofs.Assembly.Discipline
import VirtualProcessor.Proofs.Machine.Stack
import VirtualProcessor.Proofs.Arena.Guarded
import VirtualProcessor.Proofs.Machine.Guarded
import VirtualProcessor.Proofs.Number.Nearest
import VirtualProcessor.Proofs.Number.Rounding
import VirtualProcessor.Proofs.Number.Decimal
import VirtualProcessor.Proofs.Operand.Grammar
import VirtualProcessor.Proofs.Operand.Writing
import VirtualProcessor.Proofs.Assembly.Listing
import VirtualProcessor.Proofs.Assembly.Requirement
import VirtualProcessor.Proofs.Device.Screen
import VirtualProcessor.Proofs.Device.Rendering
import VirtualProcessor.Proofs.Machine.Draw
import VirtualProcessor.Proofs.Machine.Equality
