import DcpuToolchain.Vm.Instruction

/-!
# The code of a kernel call

What the linker writes for a `.CALL` where the kernel takes interrupts
(`ccstackcall.c`, `ccregistercall.c`, `ccregisterdirect.c`), and what such a call is for: the
arguments, of which the first three are in `A`, `B` and `C` and the others have been pushed,
get to where the handler expects them, and its result gets into `A`, with the stack pointer
where it was before anything was pushed.

The kernel is not there. A handler is what it leaves behind
(`DcpuToolchain.Obeys`), whatever it does.
-/

namespace DcpuToolchain

/-! ### The generators -/

/-- The settings of `interrupt-call` that the linker knows. -/
inductive CallConvention
  | stackCall | registerCall | registerDirect
  deriving DecidableEq, Repr

/-- What `generate_ccstackcall` writes. The counter of its loop has as many bits as the size,
so that for the largest size the loop never ends. -/
def generateCcstackcall (call size : Word) : Option (List Word) :=
  if size = 0xFFFF then none
  else
    some ((if size = 0 then [instructionCreate 0x01 0x18 0x20] else []) ++
      (if 1 ≤ size then [instructionCreate 0x01 0x18 0x00] else []) ++
      (if 2 ≤ size then [instructionCreate 0x01 0x18 0x01] else []) ++
      (if 3 ≤ size then [instructionCreate 0x01 0x18 0x02] else []) ++
      (List.replicate (size.toNat - 3) [instructionCreate 0x01 0x18 0x1A, 0 - size]).flatten ++
      [instructionCreate 0x00 0x08 0x1F, call, instructionCreate 0x01 0x00 0x19,
        instructionCreate 0x02 0x1B 0x1F, size + (size - 3)])

/-- What `generate_ccregistercall` writes. -/
def generateCcregistercall (call size : Word) : List Word :=
  (if size < 4 then [instructionCreate 0x01 0x18 0x20] else []) ++
    [instructionCreate 0x00 0x08 0x1F, call] ++
    (if size ≤ 3 then [instructionCreate 0x01 0x00 0x18]
    else [instructionCreate 0x01 0x00 0x19, instructionCreate 0x02 0x1B 0x1F, size - 3])

/-- What `generate_ccregisterdirect` writes. -/
def generateCcregisterdirect (call size : Word) : List Word :=
  [instructionCreate 0x00 0x08 0x1F, call] ++
    (if 3 < size then [instructionCreate 0x02 0x1B 0x1F, size - 3] else [])

/-- What is written for a call, where `ldcall_generate` gets to an end. -/
def callWords (call size : Word) : CallConvention → Option (List Word)
  | .stackCall => generateCcstackcall call size
  | .registerCall => some (generateCcregistercall call size)
  | .registerDirect => some (generateCcregisterdirect call size)

/-- How many words are pushed before the interrupt. -/
def callDepth (size : Word) : CallConvention → ℕ
  | .stackCall => max size.toNat 1
  | .registerCall => if size < 4 then 1 else 0
  | .registerDirect => 0

/-! ### The conventions -/

/-- Words in memory. -/
def CodeAt (ram : Word → Word) (pc : Word) (words : List Word) : Prop :=
  ∀ i w, words[i]? = some w → ram (pc + BitVec.ofNat 16 i) = w

/-- A machine that is about to execute the words of a call, on a stack that does not reach
into them. -/
structure Enters (host : Host) (vm : Vm) (words : List Word) (depth : ℕ) : Prop where
  hooks : host.hooks = []
  calm : vm.Calm
  queueInterrupts : vm.queueInterrupts = false
  handler : vm.ia ≠ 0
  code : CodeAt vm.ram vm.pc words
  /-- Besides what is pushed for the call, the interrupt pushes two words. -/
  apart : ∀ i < words.length, ∀ j, 1 ≤ j → j ≤ depth + 2 →
    vm.pc + BitVec.ofNat 16 i ≠ vm.sp - BitVec.ofNat 16 j

/-- An argument as the user passes it: the first three in registers, the others pushed one
after the other. -/
def argument (vm : Vm) (size : Word) (i : ℕ) : Word :=
  if i = 1 then vm.registers 0
  else if i = 2 then vm.registers 1
  else if i = 3 then vm.registers 2
  else vm.ram (vm.sp + BitVec.ofNat 16 (size.toNat - i))

/-- The arguments where the documentation says a handler finds them, in the machine that has
just entered it: `INT` has pushed the return address and `A`. -/
def Passed (size : Word) (vm handler : Vm) : CallConvention → Prop
  | .stackCall => ∀ i, 1 ≤ i → i ≤ size.toNat →
      handler.ram (handler.sp + 2 + BitVec.ofNat 16 (size.toNat - i)) = argument vm size i
  | .registerCall | .registerDirect =>
      (1 ≤ size.toNat → handler.ram handler.sp = argument vm size 1) ∧
      (2 ≤ size.toNat → handler.registers 1 = argument vm size 2) ∧
      (3 ≤ size.toNat → handler.registers 2 = argument vm size 3) ∧
      ∀ i, 4 ≤ i → i ≤ size.toNat →
        handler.ram (handler.sp + 2 + BitVec.ofNat 16 (size.toNat - i)) = argument vm size i

/-- The result where the documentation says a handler leaves it: in the place of the first
argument, on the top of the stack, or in `A`. -/
def resultOf (size : Word) (vm : Vm) : CallConvention → Word
  | .stackCall => vm.ram (vm.sp + BitVec.ofNat 16 (size.toNat - 1))
  | .registerCall => vm.ram vm.sp
  | .registerDirect => vm.registers 0

/-- A handler that has returned: to where it was called from, with the stack pointer as it was
there, and without having touched the words of the call. -/
structure Obeys (words : List Word) (pc : Word) (handler returned : Vm) : Prop where
  calm : returned.Calm
  queueInterrupts : returned.queueInterrupts = false
  returnAddress : returned.pc = handler.ram (handler.sp + 1)
  sp : returned.sp = handler.sp + 2
  code : ∀ i < words.length,
    returned.ram (pc + BitVec.ofNat 16 i) = handler.ram (pc + BitVec.ofNat 16 i)

/-- **A convention is kept** for calls of a size: the handler is entered with its message and
finds the arguments, and once it has returned the words end with the result in `A` and the
stack pointer where it was before the user pushed arguments. -/
def KeepsConvention (conv : CallConvention) (size : Word) : Prop :=
  ∀ (host : Host) (vm : Vm) (call : Word) (words : List Word),
    callWords call size conv = some words → Enters host vm words (callDepth size conv) →
      ∃ handler, RunsTo (vmInstruction host) (·.queueInterrupts = true) vm handler ∧
        handler.pc = vm.ia ∧ handler.registers 0 = call ∧ Passed size vm handler conv ∧
        ∀ returned, Obeys words vm.pc handler returned →
          ∃ done, RunsTo (vmInstruction host) (·.pc = vm.pc + BitVec.ofNat 16 words.length)
              returned done ∧
            done.registers 0 = resultOf size returned conv ∧
            done.sp = vm.sp + BitVec.ofNat 16 (size.toNat - 3)

end DcpuToolchain
