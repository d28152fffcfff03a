import DcpuToolchain.Vm.Ops

/-!
# The disassembler

`vm_disassemble` of `dcpudis.c`, without the `pretty` texts: it resolves the
operands of the instruction at a position with the machine's own
`vm_resolve_value` and puts `pc` and `sp` back afterwards.
-/

namespace DcpuToolchain

/-- `struct inst`, without its `pretty` part. -/
structure DisInst where
  /-- `original.full`. -/
  full : Word
  originalOp : ℕ
  originalA : ℕ
  originalB : ℕ
  op : ℕ
  a : Word
  b : Word
  size : Word
  extra : Word × Word
  next : Word × Word
  used : Bool × Bool

/-- `vm->ram[n]` for an `int` index: past the end lie the fields that follow `ram` in
`struct vm`. -/
def vmRamAt (vm : Vm) (n : ℕ) : Word :=
  if n < 0x10000 then vm.ram (BitVec.ofNat 16 n)
  else if n = 0x10000 then vm.dummy else vm.irq 0

/-- The resolving reads of `vm_disassemble`: the two values and the machine they
leave, its `pc` just after the instruction. -/
def vmDisassembleResolve (vm : Vm) (pos : Word) : Word × Word × Vm :=
  let full := vm.ram pos
  let vm := { vm with pc := pos + 1 }
  let (a, vm) := vmResolveValue vm (operand (instructionGetA full)) .a
  if instructionGetOp full = 0 then (a, 0, vm)
  else
    let (b, vm) := vmResolveValue vm (operand (instructionGetB full)) .b
    (a, b, vm)

/-- `vm_disassemble`: the observed instruction, and the machine with `pc` and `sp`
restored. -/
def vmDisassemble (vm : Vm) (pos : Word) : DisInst × Vm :=
  let full := vm.ram pos
  let op := instructionGetOp full
  let (a, b, vm') := vmDisassembleResolve vm pos
  let size := vm'.pc - pos
  let n := size.toNat
  let w₁ := vmRamAt vm' (pos.toNat + 1)
  let w₂ := vmRamAt vm' (pos.toNat + 2)
  let nextA := (operand (instructionGetA full)).hasNext
  let nextB := (operand (instructionGetB full)).hasNext
  ({ full := full
     originalOp := op
     originalA := instructionGetA full
     originalB := instructionGetB full
     op := if op = 0 then instructionGetB full else op
     a := a
     b := b
     size := size
     extra := (if n ≥ 2 then w₁ else 0, if n ≥ 3 then w₂ else 0)
     next :=
       if n ≥ 3 then (w₁, w₂)
       else if n ≥ 2 ∧ nextA then (w₁, 0)
       else if n ≥ 2 ∧ nextB then (0, w₁)
       else (0, 0)
     used :=
       if n ≥ 3 then (true, true)
       else if n ≥ 2 ∧ nextA then (true, false)
       else if n ≥ 2 ∧ nextB then (false, true)
       else (false, false) },
   { vm' with pc := vm.pc, sp := vm.sp })

end DcpuToolchain
