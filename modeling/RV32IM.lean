import RV32IM.Word
import RV32IM.Layout
import RV32IM.Text.Blank
import RV32IM.Text.Numeral
import RV32IM.Text.Utf8
import RV32IM.Reg
import RV32IM.Op
import RV32IM.Instr
import RV32IM.Instr.Decode
import RV32IM.Instr.Text
import RV32IM.Memory.Access
import RV32IM.Memory.Region
import RV32IM.Memory.AddressSpace
import RV32IM.Memory.Request
import RV32IM.Symbol
import RV32IM.Source.Error
import RV32IM.Diagnostic
import RV32IM.Session
import RV32IM.Session.Stmt
import RV32IM.Link
import RV32IM.Source.Scan
import RV32IM.Source.Operand
import RV32IM.Source.Quoted
import RV32IM.Source.Statement
import RV32IM.Source.Assemble
import RV32IM.Hart
import RV32IM.Hart.Alu
import RV32IM.Machine
import RV32IM.Host.Directory
import RV32IM.Host.Interface
import RV32IM.Host
import RV32IM.Os
import RV32IM.Guest
import RV32IM.Elf
import RV32IM.Elf.Read
import RV32IM.Machine.Load
import RV32IM.Json
import RV32IM.Json.Read
import RV32IM.Config
import RV32IM.Listing
import RV32IM.Listing.Text
import RV32IM.Command
import RV32IM.Command.Options
import RV32IM.Command.Run
import RV32IM.Command.Assemble
import RV32IM.Command.Disassemble
import RV32IM.Main
import RV32IM.Proofs.Layout.Lens
import RV32IM.Proofs.Instr.Codec
import RV32IM.Proofs.Session.Emission
import RV32IM.Proofs.Memory.Mapping
import RV32IM.Proofs.Instr.Patch
import RV32IM.Proofs.Session.Growth
import RV32IM.Proofs.Link.Placement
import RV32IM.Proofs.Link.Relocation
import RV32IM.Proofs.Link.Site
import RV32IM.Proofs.Layout.Displacement
import RV32IM.Proofs.Session.Anchor
import RV32IM.Proofs.Link.Literal
import RV32IM.Proofs.Link.Value
import RV32IM.Proofs.Machine.Far
import RV32IM.Proofs.Machine.Constant
import RV32IM.Proofs.Layout.SignExtend
import RV32IM.Proofs.Instr.Decode
import RV32IM.Proofs.Instr.Image
import RV32IM.Proofs.Hart.Arithmetic
import RV32IM.Proofs.Text.Numeral
import RV32IM.Proofs.Source.Scan
import RV32IM.Proofs.Source.Operand
import RV32IM.Proofs.Source.Statement
import RV32IM.Proofs.Source.Assemble
import RV32IM.Proofs.Memory.Alike
import RV32IM.Proofs.Machine.Step
import RV32IM.Proofs.Os.Memory
import RV32IM.Proofs.Os.Handles
import RV32IM.Proofs.Guest.Step
import RV32IM.Proofs.Guest.Drive
import RV32IM.Proofs.Guest.Protection
import RV32IM.Proofs.Guest.Secrecy
import RV32IM.Proofs.Guest.Watchdog
import RV32IM.Proofs.Memory.Pages
import RV32IM.Proofs.Memory.Bytes
import RV32IM.Proofs.Machine.Frame
import RV32IM.Proofs.Memory.Requests
import RV32IM.Proofs.Memory.Journal
import RV32IM.Proofs.Link.Confinement
import RV32IM.Proofs.Elf.Load
import RV32IM.Proofs.Listing.Lookup
import RV32IM.Proofs.Source.Name
import RV32IM.Proofs.Link.Exact
import RV32IM.Proofs.Link.Apart
import RV32IM.Proofs.Link.Order
import RV32IM.Proofs.Session.Shift
import RV32IM.Proofs.Source.Shift
import RV32IM.Proofs.Link.Shift
import RV32IM.Proofs.Link.Recorded
import RV32IM.Proofs.Elf.RoundTrip
import RV32IM.Proofs.Machine.Boot
import RV32IM.Proofs.Source.Transcript
import RV32IM.Proofs.Guest.Handles
import RV32IM.Proofs.Memory.Gap
import RV32IM.Proofs.Memory.Transfer
import RV32IM.Proofs.Elf.Segments
import RV32IM.Proofs.Session.Report
import RV32IM.Proofs.Source.Rejected
import RV32IM.Proofs.Source.Repaired
import RV32IM.Proofs.Listing.Sweep
import RV32IM.Proofs.Text.Utf8
import RV32IM.Proofs.Memory.Row
import RV32IM.Proofs.Os.Read
import RV32IM.Proofs.Os.Write
import RV32IM.Proofs.Os.Path
import RV32IM.Proofs.Os.Stream
import RV32IM.Proofs.Host.Streams
import RV32IM.Proofs.Guest.Frame
import RV32IM.Proofs.Guest.Output
import RV32IM.Proofs.Guest.Input
import RV32IM.Proofs.Text.Digits
import RV32IM.Proofs.Source.Number
import RV32IM.Proofs.Source.Quoted
import RV32IM.Proofs.Source.StringLine
import RV32IM.Proofs.Machine.Stack
import RV32IM.Proofs.Layout.Laws
import RV32IM.Proofs.Source.Register
import RV32IM.Proofs.Symbol.History
