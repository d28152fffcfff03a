import DcpuToolchain.Vm.Size
import DcpuToolchain.Vm.Deliver
import DcpuToolchain.Vm.IrqOrder
import DcpuToolchain.Vm.Queue
import DcpuToolchain.Dbg.Breakpoints
import DcpuToolchain.Ld.Convention
import DcpuToolchain.Ld.Move
import DcpuToolchain.Ld.Link
import DcpuToolchain.Ld.Resolve
import DcpuToolchain.Ld.Directives
import DcpuToolchain.Ld.Jumplist
import DcpuToolchain.Ld.Shorten
import DcpuToolchain.Pp.Scopes
import DcpuToolchain.Pp.Reads
import DcpuToolchain.Pp.Branch
import DcpuToolchain.Pp.Terminates
import DcpuToolchain.Pp.Balance
import DcpuToolchain.Pp.Within
import DcpuToolchain.Fmt.Objfile
import DcpuToolchain.Asm.Literals
import DcpuToolchain.Hw.Bounds
import DcpuToolchain.Expr.Grouping
import DcpuToolchain.Hw.Picture
import DcpuToolchain.Hw.Typing
import DcpuToolchain.Hw.Disk
import DcpuToolchain.Img.Micro
import DcpuToolchain.Hw.Clock
import DcpuToolchain.Asm.Reset
import DcpuToolchain.Expr.Parameters
import DcpuToolchain.Ld.Meaning
import DcpuToolchain.Kernel.Allocator
import DcpuToolchain.Asm.Relocations
import DcpuToolchain.Asm.Labels
import DcpuToolchain.Vm.Arithmetic
import DcpuToolchain.Vm.Returns
import DcpuToolchain.Vm.Observe
import DcpuToolchain.Dbg.StepOver
import DcpuToolchain.Hw.Font
import DcpuToolchain.Pp.Defined
import DcpuToolchain.Ld.Offsets
import DcpuToolchain.Pp.Names
import DcpuToolchain.Pp.Endmacro
import DcpuToolchain.Pp.Occurrences
import DcpuToolchain.Ld.Restore
import DcpuToolchain.Ld.Symbols
import DcpuToolchain.Ld.JumpTable
import DcpuToolchain.Lib.Lines
import DcpuToolchain.Pp.Numbering
import DcpuToolchain.Ld.Outputs
import DcpuToolchain.Vm.Hooks
import DcpuToolchain.Ld.Remove
import DcpuToolchain.Expr.Representation
import DcpuToolchain.Expr.Promotion
import DcpuToolchain.Lib.Cells
import DcpuToolchain.Lib.Lexicographic
import DcpuToolchain.Libc.Compare
import DcpuToolchain.Libc.Copy
import DcpuToolchain.Libc.Format
import DcpuToolchain.Pp.Replacement
import DcpuToolchain.Asm.Assem
import DcpuToolchain.Asm.Encoding
import DcpuToolchain.Asm.Program
import DcpuToolchain.Asm.Running
import DcpuToolchain.Kernel.Hardware
import DcpuToolchain.Asm.Object
import DcpuToolchain.Ld.Contents
import DcpuToolchain.Ld.Input
import DcpuToolchain.Ld.Library
import DcpuToolchain.Ld.Programs
