import DcpuToolchain.Isa
import Mathlib.Logic.Function.Basic

/-!
# The allocator of the stub kernel

The routines of `kernel/stubsys/memory.dasm16`, label by label: each label is a function on the
registers, the stack and the memory, in which each line of the assembly is one line. A routine
that is called leaves the stack as it finds it, so that the addresses to return to, which lie
below what is pushed, are left out; the stack is not part of the memory that is allocated.

The words at the labels `mempointer`, `userspacemem` and `userspaceend` are never written.
-/

namespace DcpuToolchain

/-! ### The machine -/

/-- What the routines work on. -/
structure StubSys where
  a : Word
  b : Word
  c : Word
  i : Word
  stack : List Word
  ram : Word → Word

/-- The operands of the routines. -/
inductive StubOperand
  | a | b | c | i
  /-- `[A]`. -/
  | atA
  /-- `[B]`. -/
  | atB
  /-- `[I]`. -/
  | atI
  | push | pop | peek
  /-- A literal, or a word that is never written. -/
  | lit (w : Word)

namespace StubSys

/-- The value of an operand. -/
def get (s : StubSys) : StubOperand → Word
  | .a => s.a
  | .b => s.b
  | .c => s.c
  | .i => s.i
  | .atA => s.ram s.a
  | .atB => s.ram s.b
  | .atI => s.ram s.i
  | .push => 0
  | .pop | .peek => s.stack.headD 0
  | .lit w => w

/-- Reading an operand takes a word that is popped from the stack. -/
def took (s : StubSys) : StubOperand → StubSys
  | .pop => { s with stack := s.stack.tail }
  | _ => s

/-- A value is put in an operand. -/
def put (s : StubSys) (v : Word) : StubOperand → StubSys
  | .a => { s with a := v }
  | .b => { s with b := v }
  | .c => { s with c := v }
  | .i => { s with i := v }
  | .atA => { s with ram := Function.update s.ram s.a v }
  | .atB => { s with ram := Function.update s.ram s.b v }
  | .atI => { s with ram := Function.update s.ram s.i v }
  | .push => { s with stack := v :: s.stack }
  | .peek => { s with stack := v :: s.stack.tail }
  | .pop | .lit _ => s

/-- `SET`. -/
def set (s : StubSys) (dst src : StubOperand) : StubSys := (s.took src).put (s.get src) dst

/-- `ADD`. -/
def add (s : StubSys) (dst src : StubOperand) : StubSys :=
  (s.took src).put ((s.took src).get dst + s.get src) dst

/-- `SUB`. -/
def sub (s : StubSys) (dst src : StubOperand) : StubSys :=
  (s.took src).put ((s.took src).get dst - s.get src) dst

/-- `[mempointer]`. -/
def mempointer : Word := 0x6000

/-- `[userspacemem]`. -/
def userspacemem : Word := 0x6000

/-- `[userspaceend]`. -/
def userspaceend : Word := 0x7FFF

/-! ### The initial blocks -/

/-- `set_initial_blocks`. -/
def setInitialBlocks (s : StubSys) : StubSys :=
  s.set .push .b
    |>.set .atA (.lit 0xFFFF)
    |>.add .a (.lit 1)
    |>.sub .b .a
    |>.set .atA .b
    |>.set .b .pop
    |>.sub .a (.lit 1)
    |>.set .atB .a

/-- `kernel_boot`. -/
def kernelBoot (s : StubSys) : StubSys :=
  s.set .a (.lit userspacemem)
    |>.set .b (.lit userspaceend)
    |>.setInitialBlocks

/-! ### Freeing -/

/-- `free_end`. -/
def freeEnd (s : StubSys) : StubSys := s.set .a .pop

/-- `free_merge_forward`, up to the `IFN`. -/
def freeMergeClear (s : StubSys) : StubSys :=
  s.set .atA (.lit 0)
    |>.add .a (.lit 1)
    |>.set .b .atA
    |>.set .c .b
    |>.set .atA (.lit 0)
    |>.add .a .b

/-- `free_merge_forward`, behind the `IFN`. -/
def freeMergeSize (s : StubSys) : StubSys :=
  s.set .b .pop
    |>.set .push .b
    |>.set .atA .b
    |>.set .a .b
    |>.add .a (.lit 1)
    |>.set .b .atA
    |>.add .b .c
    |>.add .b (.lit 3)
    |>.set .atA .b
    |>.freeEnd

/-- `free_merge_forward`. -/
def freeMergeForward (s : StubSys) : StubSys :=
  if s.freeMergeClear.a ≠ userspaceend then (s.freeMergeClear.add .a (.lit 1)).freeMergeSize
  else s.freeMergeClear.freeMergeSize

/-- `free_check_backwards_continue`, behind the second `SET PC, free_end`. -/
def freeMergeBackwards (s : StubSys) : StubSys :=
  s.set .peek .a
    |>.add .a (.lit 1)
    |>.set .b .atA
    |>.add .a .b
    |>.add .a (.lit 2)
    |>.freeMergeForward

/-- `free_check_backwards_continue`. -/
def freeCheckBackwardsContinue (s : StubSys) : StubSys :=
  if s.get .atA = 0 then s.freeEnd
  else if ((s.set .b .atA).set .a .b).get .atA ≠ 0xFFFF then ((s.set .b .atA).set .a .b).freeEnd
  else ((s.set .b .atA).set .a .b).freeMergeBackwards

/-- `free_check_backwards`. -/
def freeCheckBackwards (s : StubSys) : StubSys :=
  if userspacemem < ((s.set .a .peek).sub .a (.lit 1)).get .a then
    ((s.set .a .peek).sub .a (.lit 1)).freeCheckBackwardsContinue
  else ((s.set .a .peek).sub .a (.lit 1)).freeEnd

/-- `free_check_forward`, up to the `IFE`: what is in `A` then is not the next block. -/
def freeNextBlock (s : StubSys) : StubSys :=
  s.add .a (.lit 1)
    |>.set .b .atA
    |>.set .a .b
    |>.set .a (.lit 2)

/-- `free_check_forward`. -/
def freeCheckForward (s : StubSys) : StubSys :=
  if s.freeNextBlock.get .atA = 0xFFFF then s.freeNextBlock.freeMergeForward
  else s.freeNextBlock.freeCheckBackwards

/-- `free`, of a pointer in `A`. -/
def free (s : StubSys) : StubSys :=
  s.sub .a (.lit 2)
    |>.set .atA (.lit 0xFFFF)
    |>.set .push .a
    |>.freeCheckForward

/-! ### Allocating -/

/-- `malloc_end`. -/
def mallocEnd (s : StubSys) : StubSys :=
  s.set .a .pop
    |>.add .a (.lit 2)
    |>.set .i .pop

/-- `malloc_allocate`. -/
def mallocAllocate (s : StubSys) : StubSys :=
  s.set .push .i
    |>.set .push .i
    |>.set .atI .b
    |>.add .i (.lit 1)
    |>.set .atI .a
    |>.add .i (.lit 1)
    |>.add .i .a
    |>.set .b .pop
    |>.set .atI .b
    |>.add .i (.lit 1)
    |>.set .a .i
    |>.set .b (.lit userspaceend)
    |>.setInitialBlocks
    |>.mallocEnd

/-- `malloc_prepare`. -/
def mallocPrepare (s : StubSys) : StubSys :=
  s.sub .i (.lit 1)
    |>.mallocAllocate

/-- `malloc_check_end`. -/
def mallocCheckEnd (s : StubSys) : StubSys :=
  s.set .b .pop
    |>.mallocPrepare

/-- `malloc_check_overhead`, up to the `IFG`. -/
def mallocOverhead (s : StubSys) : StubSys :=
  s.set .push .b
    |>.set .b .atI
    |>.sub .b .a

/-- `malloc_check_overhead`, behind the `IFG`. -/
def mallocWhole (s : StubSys) : StubSys :=
  s.sub .i (.lit 1)
    |>.set .b .pop
    |>.set .atI .b
    |>.set .push .i
    |>.mallocEnd

/-- `malloc_check_overhead`. -/
def mallocCheckOverhead (s : StubSys) : StubSys :=
  if 3 < s.mallocOverhead.get .b then s.mallocOverhead.mallocCheckEnd
  else s.mallocOverhead.mallocWhole

/-- `malloc_found_free`. -/
def mallocFoundFree (s : StubSys) : StubSys :=
  if s.get .i = userspacemem then s.mallocAllocate else (s.add .i (.lit 1)).mallocCheckOverhead

/-- The rest of a turn of `malloc_loop`. -/
def mallocNext (s : StubSys) : StubSys :=
  s.add .i (.lit 1)
    |>.add .i .atI
    |>.add .i (.lit 2)

/-- `malloc_loop`: after as many turns as there are words it has come to none that ends it, and
never will. -/
def mallocLoop : (turns : ℕ) → StubSys → Option StubSys
  | 0, _ => none
  | turns + 1, s =>
    if s.get .atI = 0xFFFF then some s.mallocFoundFree else mallocLoop turns s.mallocNext

/-- `malloc`, of a size in `A`. -/
def malloc (s : StubSys) : Option StubSys :=
  s.set .push .i
    |>.set .i (.lit mempointer)
    |> mallocLoop 0x10000

end StubSys

/-! ### Programs that allocate -/

/-- What a program does: it calls the kernel with some registers, or writes to its memory. -/
inductive MemoryCall
  | malloc (size b c i : Word)
  | free (pointer b c i : Word)
  | write (address value : Word)
  deriving DecidableEq, Repr

/-- The memory, and the blocks that are live: the pointers that `malloc` has returned and that are
not freed yet, with the sizes asked for. -/
structure MemoryState where
  ram : Word → Word
  live : List (Word × Word)

/-- A program does something, unless `malloc` does not return. -/
def MemoryState.step (s : MemoryState) : MemoryCall → Option MemoryState
  | .malloc size b c i =>
    (StubSys.malloc ⟨size, b, c, i, [], s.ram⟩).map fun t => ⟨t.ram, (t.a, size) :: s.live⟩
  | .free pointer b c i =>
    some ⟨(StubSys.free ⟨pointer, b, c, i, [], s.ram⟩).ram, s.live.eraseP (·.1 = pointer)⟩
  | .write address value => some { s with ram := Function.update s.ram address value }

/-- A program does one thing after the other. -/
def MemoryState.run (s : MemoryState) : List MemoryCall → Option MemoryState
  | [] => some s
  | call :: calls => (s.step call).bind (·.run calls)

/-- The state after `kernel_boot`. -/
def memoryBoot (ram : Word → Word) : MemoryState :=
  ⟨(StubSys.kernelBoot ⟨0, 0, 0, 0, [], ram⟩).ram, []⟩

end DcpuToolchain
