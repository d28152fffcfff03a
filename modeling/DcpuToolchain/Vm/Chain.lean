import DcpuToolchain.Lib.Carry
import DcpuToolchain.Vm.Ops

/-!
# Numbers of several words

`ADD` and `ADX`, or `SUB` and `SBX`, one after the other, add and subtract numbers of any number
of words, the lowest first: `EX` carries what the next pair takes. A carry is the word `1` and
a borrow the word `0xFFFF`, which is `-1` where `EX` is read as signed, so that an opcode is one
column of `Carry.Columns` with `δ` its sign (`DcpuToolchain.Alu.Carries`), and a chain of them
is a chain of columns (`DcpuToolchain.runOps_carries`).
-/

namespace DcpuToolchain

/-! ### Opcodes one after the other -/

/-- An opcode with its operands. -/
abbrev OpCall := (Host → Vm → Operand → Operand → Option Vm) × Operand × Operand

/-- One opcode on the lowest words and another on each next pair. -/
def chainOf (first next : Host → Vm → Operand → Operand → Option Vm) :
    List (Operand × Operand) → List OpCall
  | [] => []
  | pair :: pairs => (first, pair) :: pairs.map fun pair => (next, pair)

/-- The opcodes one after the other; the word of each has been consumed before it. -/
def runOps (host : Host) : List OpCall → Vm → Option Vm
  | [], vm => some vm
  | (op, b, a) :: calls, vm => (op host (vmConsumeWord vm).2 b a).bind (runOps host calls)

/-- What `a` yields, where an opcode resolves it first. -/
def opValA (vm : Vm) (a : Operand) : Word := (vmResolveValue vm a .a).1

/-- Where `b` is stored, after `a` has been resolved. -/
def opStoreB (vm : Vm) (b a : Operand) : Store :=
  (vmInternalGetStore (vmResolveValue vm a .a).2 b .b).1

/-- The destination and the source of each opcode, as the run comes to them. -/
def opsWords (host : Host) : List OpCall → Vm → List (Store × Word)
  | [], _ => []
  | (op, b, a) :: calls, vm =>
      let vm := (vmConsumeWord vm).2
      (opStoreB vm b a, opValA vm a) ::
        match op host vm b a with
        | some vm => opsWords host calls vm
        | none => []

theorem opsWords_cons {host : Host} {op : Host → Vm → Operand → Operand → Option Vm}
    {b a : Operand} {vm vm' : Vm} (h : op host (vmConsumeWord vm).2 b a = some vm')
    (calls : List OpCall) :
    opsWords host ((op, b, a) :: calls) vm =
      (opStoreB (vmConsumeWord vm).2 b a, opValA (vmConsumeWord vm).2 a) ::
        opsWords host calls vm' := by
  rw [opsWords, h]

/-! ### Numbers -/

/-- The number that some words make, the lowest first. -/
def numberOf (words : List Word) : ℕ := Nat.ofDigits 0x10000 (words.map BitVec.toNat)

/-- The number in the destinations of a run. -/
def destNumber (words : List (Store × Word)) (vm : Vm) : ℕ :=
  numberOf (words.map fun p => vm.load p.1)

/-- The number that the sources of a run yield. -/
def sourceNumber (words : List (Store × Word)) : ℕ := numberOf (words.map Prod.snd)

/-- A register or a word of the memory. -/
def Store.isWord : Store → Bool
  | .reg _ | .ram _ => true
  | _ => false

/-- Write hooks that leave the machine as it is, as far as a chain depends on it. -/
def QuietWrites (host : Host) : Prop :=
  ∀ pos vm, ∃ vm', vmHookFire host pos .onWrite vm = some vm' ∧ vm'.registers = vm.registers ∧
    vm'.ram = vm.ram ∧ vm'.ex = vm.ex ∧ vm'.skip = vm.skip

/-! ### One opcode -/

/-- What a chain depends on in the machine. -/
structure SameWords (vm vm' : Vm) : Prop where
  registers : vm'.registers = vm.registers
  ram : vm'.ram = vm.ram
  ex : vm'.ex = vm.ex
  skip : vm'.skip = vm.skip

theorem SameWords.trans {vm vm' vm'' : Vm} (h : SameWords vm vm') (h' : SameWords vm' vm'') :
    SameWords vm vm'' :=
  ⟨h'.registers.trans h.registers, h'.ram.trans h.ram, h'.ex.trans h.ex, h'.skip.trans h.skip⟩

theorem Vm.load_congr {vm vm' : Vm} (hregisters : vm'.registers = vm.registers)
    (hram : vm'.ram = vm.ram) {s : Store} (hs : s.isWord) : vm'.load s = vm.load s := by
  cases s with
  | reg r => exact congrFun hregisters r
  | ram addr => exact congrFun hram addr
  | _ => exact absurd hs (by simp [Store.isWord])

theorem SameWords.load {vm vm' : Vm} (h : SameWords vm vm') {s : Store} (hs : s.isWord) :
    vm'.load s = vm.load s :=
  Vm.load_congr h.registers h.ram hs

theorem sameWords_consume (vm : Vm) : SameWords vm (vmConsumeWord vm).2 := ⟨rfl, rfl, rfl, rfl⟩

theorem sameWords_resolve (vm : Vm) (val : Operand) (pos : Pos) :
    SameWords vm (vmResolveValue vm val pos).2 := by
  cases val with
  | pushPop => cases pos <;> simp only [vmResolveValue] <;> split <;> exact ⟨rfl, rfl, rfl, rfl⟩
  | _ => exact ⟨rfl, rfl, rfl, rfl⟩

theorem sameWords_getStore (vm : Vm) (loc : Operand) (pos : Pos) :
    SameWords vm (vmInternalGetStore vm loc pos).2 := by
  unfold vmInternalGetStore
  split
  · split <;> exact ⟨rfl, rfl, rfl, rfl⟩
  · cases loc with
    | pushPop => cases pos <;> exact ⟨rfl, rfl, rfl, rfl⟩
    | _ => exact ⟨rfl, rfl, rfl, rfl⟩

/-- What an opcode with a carry leaves: a word, and `EX`. -/
structure WritesWord (vm vm' : Vm) (dest : Store) (word ex : Word) : Prop where
  skip : vm'.skip = false
  ex : vm'.ex = ex
  word : vm'.load dest = word
  other : ∀ s : Store, s.isWord → s ≠ dest → vm'.load s = vm.load s

theorem Vm.load_store (vm : Vm) {s : Store} (hs : s.isWord) (t : Store) (w : Word) :
    (vm.store t w).load s = if s = t then w else vm.load s := by
  cases s with
  | reg r => cases t <;> simp [Vm.load, Vm.store, Function.update_apply]
  | ram addr => cases t <;> simp [Vm.load, Vm.store, Function.update_apply]
  | _ => exact absurd hs (by simp [Store.isWord])

/-- The write hook of a store to a word. -/
theorem vmHookFireStore_quiet {host : Host} (hquiet : QuietWrites host) (s : Store) (vm : Vm) :
    ∃ vm', vmHookFireStore host s vm = some vm' ∧ SameWords vm vm' := by
  cases s with
  | ram addr =>
    obtain ⟨vm', hfire, hregisters, hram, hex, hskip⟩ := hquiet addr vm
    exact ⟨vm', hfire, hregisters, hram, hex, hskip⟩
  | _ => exact ⟨vm, rfl, rfl, rfl, rfl, rfl⟩

/-- A store to a word leaves the flag and `EX` alone. -/
theorem Vm.store_frame (vm : Vm) {s : Store} (hs : s.isWord) (w : Word) :
    (vm.store s w).skip = vm.skip ∧ (vm.store s w).ex = vm.ex := by
  cases s with
  | reg | ram => exact ⟨rfl, rfl⟩
  | _ => exact absurd hs (by simp [Store.isWord])

/-- **One opcode** of the pattern, where nothing is skipped and `b` is a word. -/
theorem storeOp_writesWord {host : Host} (hquiet : QuietWrites host) {vm : Vm}
    (hskip : vm.skip = false) {b a : Operand} (hb : (opStoreB vm b a).isWord) {alu : Alu}
    {z : Word} {e : Option Word}
    (halu : alu host (vm.load (opStoreB vm b a)) (opValA vm a) vm.ex = (z, e))
    (cycles : Word) :
    ∃ vm', storeOp cycles alu host vm b a = some vm' ∧
      WritesWord vm vm' (opStoreB vm b a) z (e.getD vm.ex) := by
  have hA := sameWords_resolve vm a .a
  have hB := hA.trans (sameWords_getStore (vmResolveValue vm a .a).2 b .b)
  rw [← hB.load hb, ← hB.ex] at halu
  obtain ⟨stored, hstored⟩ : ∃ stored, stored =
      (opNumCycles cycles (vmInternalGetStore (vmResolveValue vm a .a).2 b .b).2).store
        (opStoreB vm b a) z := ⟨_, rfl⟩
  have hframe : stored.skip = false ∧ stored.ex = vm.ex := by
    obtain ⟨hskipStore, hexStore⟩ := Vm.store_frame
      (opNumCycles cycles (vmInternalGetStore (vmResolveValue vm a .a).2 b .b).2) hb z
    rw [hstored]
    exact ⟨hskipStore.trans (hB.skip.trans hskip), hexStore.trans hB.ex⟩
  -- An opcode that computes no `EX` leaves it as it is.
  have hex : stored.setEx vm.ex = stored := by
    rw [← hframe.2]
    rfl
  obtain ⟨vm', hfire, hsame⟩ :=
    vmHookFireStore_quiet hquiet (opStoreB vm b a) (stored.setEx (e.getD vm.ex))
  have hload : ∀ s : Store, s.isWord →
      vm'.load s = if s = opStoreB vm b a then z else vm.load s := by
    intro s hs
    rw [hsame.load hs, Vm.load_congr (Vm.setEx_registers ..) (Vm.setEx_ram ..) hs, hstored,
      Vm.load_store _ hs]
    exact ite_congr rfl (fun _ => rfl) fun _ => hB.load hs
  refine ⟨vm', ?_, hsame.skip.trans hframe.1, hsame.ex, (hload _ hb).trans (if_pos rfl),
    fun s hs hne => (hload s hs).trans (if_neg hne)⟩
  rw [← hfire]
  simp only [storeOp, opNumCycles, Vm.sleep_skip, Vm.sleep_ex, hB.skip.trans hskip,
    Bool.false_eq_true, if_false]
  unfold opStoreB opValA at halu
  rw [halu]
  cases e with
  | some ex =>
    rw [hstored]
    rfl
  | none =>
    rw [Option.getD_none, hex, hstored]
    rfl

/-! ### One column -/

/-- A carry of a sum is `0` or `1`, that of a difference `0` or `-1`. -/
def IsCarry (δ c : ℤ) : Prop := 0 ≤ δ * c ∧ δ * c ≤ 1

/-- The arithmetic of an opcode is a column, with `carryIn` what it makes of `EX`. -/
def Alu.Carries (alu : Alu) (δ : ℤ) (carryIn : Word → ℤ) : Prop :=
  ∀ host b a ex, IsCarry δ (carryIn ex) → ∃ z e, alu host b a ex = (z, some e) ∧
    Carry.Column 0x10000 δ (carryIn ex) b.toNat a.toNat z.toNat e.toInt ∧ IsCarry δ e.toInt

/-- **The word and the flow** of an exact result that is at most one carry or borrow away from
a word. -/
theorem ofInt_add_arithmeticFlow {r : ℤ} (hlow : -0x10000 ≤ r) (hhigh : r < 0x20000) :
    ((BitVec.ofInt 16 r).toNat : ℤ) + (0x10000 : ℕ) * (arithmeticFlow r).toInt = r := by
  rw [BitVec.toNat_ofInt]
  unfold arithmeticFlow
  split_ifs with hneg hover
  · rw [show (0xFFFF : Word).toInt = -1 from rfl]
    omega
  · rw [show (0x0001 : Word).toInt = 1 from rfl]
    omega
  · rw [show (0x0000 : Word).toInt = 0 from rfl]
    omega

/-- An opcode whose word and flow are those of the exact sum or difference is a column. -/
theorem Alu.Carries.of_exact {alu : Alu} {δ : ℤ} {carryIn : Word → ℤ} (hδ : δ = 1 ∨ δ = -1)
    (h : ∀ host b a ex, alu host b a ex =
      (BitVec.ofInt 16 (b.toNat + δ * a.toNat + carryIn ex),
        some (arithmeticFlow (b.toNat + δ * a.toNat + carryIn ex)))) :
    alu.Carries δ carryIn := by
  intro host b a ex hcarry
  obtain ⟨r, hr⟩ : ∃ r, r = (b.toNat : ℤ) + δ * a.toNat + carryIn ex := ⟨_, rfl⟩
  have hb := b.isLt
  have ha := a.isLt
  unfold IsCarry at hcarry ⊢
  have hbounds : -0x10000 ≤ r ∧ r < 0x20000 := by
    rcases hδ with rfl | rfl <;> omega
  have hsum := ofInt_add_arithmeticFlow hbounds.1 hbounds.2
  have hword := (BitVec.ofInt 16 r).isLt
  refine ⟨_, _, h host b a ex, ⟨BitVec.isLt _, ?_⟩, ?_⟩
  · rw [← hr]
    exact hsum
  · rw [← hr]
    rcases hδ with rfl | rfl <;> omega

theorem aluAdd_carries : aluAdd.Carries 1 fun _ => 0 := by
  refine .of_exact (.inl rfl) fun host b a ex => ?_
  rw [one_mul, add_zero, BitVec.ofInt_add]
  simp [aluAdd]

theorem aluAdx_carries : aluAdx.Carries 1 BitVec.toInt := by
  refine .of_exact (.inl rfl) fun host b a ex => ?_
  rw [one_mul]
  simp [aluAdx, BitVec.ofInt_add]

theorem aluSub_carries : aluSub.Carries (-1) fun _ => 0 := by
  refine .of_exact (.inr rfl) fun host b a ex => ?_
  rw [neg_one_mul, add_zero, BitVec.ofInt_add, BitVec.ofInt_neg]
  simp [aluSub, sub_eq_add_neg]

theorem aluSbx_carries : aluSbx.Carries (-1) BitVec.toInt := by
  refine .of_exact (.inr rfl) fun host b a ex => ?_
  rw [neg_one_mul, BitVec.ofInt_add, BitVec.ofInt_add, BitVec.ofInt_neg]
  simp [aluSbx, sub_eq_add_neg]

/-! ### A chain of columns -/

/-- The digits that some places hold. -/
def digitsAt (vm : Vm) (dests : List Store) : List ℕ := dests.map fun s => (vm.load s).toNat

theorem digitsAt_congr {vm vm' : Vm} {dests : List Store}
    (h : ∀ s ∈ dests, vm'.load s = vm.load s) : digitsAt vm' dests = digitsAt vm dests :=
  List.map_congr_left fun s hs => congrArg BitVec.toNat (h s hs)

/-- The destinations of a run are words, each another one. -/
structure Fits (words : List (Store × Word)) : Prop where
  isWord : ∀ p ∈ words, p.1.isWord
  nodup : (words.map Prod.fst).Nodup

/-- What a run of opcodes with a carry comes to. -/
structure RunCarries (host : Host) (δ c : ℤ) (calls : List OpCall) (vm vm' : Vm) : Prop where
  run : runOps host calls vm = some vm'
  skip : vm'.skip = false
  carry : IsCarry δ vm'.ex.toInt
  columns : Carry.Columns 0x10000 δ c (digitsAt vm ((opsWords host calls vm).map Prod.fst))
    ((opsWords host calls vm).map fun p => p.2.toNat)
    (digitsAt vm' ((opsWords host calls vm).map Prod.fst)) vm'.ex.toInt
  other : ∀ s : Store, s.isWord → s ∉ (opsWords host calls vm).map Prod.fst →
    vm'.load s = vm.load s

variable {host : Host} {δ : ℤ}

/-- **One more column** in front of a run. -/
theorem RunCarries.cons (hquiet : QuietWrites host) {alu : Alu} {carryIn : Word → ℤ}
    (halu : alu.Carries δ carryIn) (cycles : Word) {b a : Operand} {calls : List OpCall} {vm : Vm}
    (hskip : vm.skip = false) (hcarry : IsCarry δ (carryIn vm.ex))
    (hfits : Fits (opsWords host ((storeOp cycles alu, b, a) :: calls) vm))
    (hrest : ∀ vm₁ : Vm, vm₁.skip = false → IsCarry δ vm₁.ex.toInt →
      Fits (opsWords host calls vm₁) →
      ∃ vm', RunCarries host δ vm₁.ex.toInt calls vm₁ vm') :
    ∃ vm', RunCarries host δ (carryIn vm.ex) ((storeOp cycles alu, b, a) :: calls) vm vm' := by
  have hsame := sameWords_consume vm
  have hb : (opStoreB (vmConsumeWord vm).2 b a).isWord := hfits.isWord _ List.mem_cons_self
  obtain ⟨z, e, hresult, hcolumn, hout⟩ :=
    halu host ((vmConsumeWord vm).2.load (opStoreB (vmConsumeWord vm).2 b a))
      (opValA (vmConsumeWord vm).2 a) (vmConsumeWord vm).2.ex hcarry
  obtain ⟨vm₁, hop, hwrites⟩ := storeOp_writesWord hquiet (hsame.skip.trans hskip) hb hresult cycles
  have hex₁ : vm₁.ex = e := hwrites.ex
  have hwords := opsWords_cons hop calls
  rw [hwords] at hfits
  have hnodup := List.nodup_cons.mp (List.map_cons ▸ hfits.nodup)
  have hfits₁ : Fits (opsWords host calls vm₁) :=
    ⟨fun p hp => hfits.isWord p (List.mem_cons_of_mem _ hp), hnodup.2⟩
  rw [← hex₁] at hout
  obtain ⟨vm', hrun⟩ := hrest vm₁ hwrites.skip hout hfits₁
  -- The later opcodes find their words as they were, and leave that of the first.
  have hbefore : digitsAt vm₁ ((opsWords host calls vm₁).map Prod.fst) =
      digitsAt vm ((opsWords host calls vm₁).map Prod.fst) := by
    refine digitsAt_congr fun s hs => ?_
    obtain ⟨p, hp, rfl⟩ := List.mem_map.mp hs
    have hword := hfits₁.isWord p hp
    exact (hwrites.other p.1 hword fun heq => hnodup.1 (heq ▸ hs)).trans (hsame.load hword)
  have hafter : vm'.load (opStoreB (vmConsumeWord vm).2 b a) = z :=
    (hrun.other _ hb hnodup.1).trans hwrites.word
  refine ⟨vm', ⟨?_, hrun.skip, hrun.carry, ?_, ?_⟩⟩
  · rw [runOps, hop]
    exact hrun.run
  · have hcolumns := hrun.columns
    rw [hbefore, hex₁] at hcolumns
    rw [hsame.load hb, hsame.ex] at hcolumn
    rw [hwords]
    simp only [digitsAt, List.map_cons, hafter]
    exact .cons hcolumn hcolumns
  · intro s hs hnot
    rw [hwords, List.map_cons, List.mem_cons, not_or] at hnot
    rw [hrun.other s hs hnot.2, hwrites.other s hs hnot.1, hsame.load hs]

/-- **A chain that goes on**: opcodes that take their carries from `EX`. -/
theorem runOps_carries (hquiet : QuietWrites host) {alu : Alu} (halu : alu.Carries δ BitVec.toInt)
    (cycles : Word) (pairs : List (Operand × Operand)) {vm : Vm} (hskip : vm.skip = false)
    (hcarry : IsCarry δ vm.ex.toInt)
    (hfits : Fits (opsWords host (pairs.map fun pair => (storeOp cycles alu, pair)) vm)) :
    ∃ vm', RunCarries host δ vm.ex.toInt (pairs.map fun pair => (storeOp cycles alu, pair)) vm
      vm' := by
  induction pairs generalizing vm with
  | nil => exact ⟨vm, rfl, hskip, hcarry, .nil, fun _ _ _ => rfl⟩
  | cons pair pairs ih =>
    exact RunCarries.cons hquiet halu cycles hskip hcarry hfits fun vm₁ hskip₁ hcarry₁ hfits₁ =>
      ih hskip₁ hcarry₁ hfits₁

/-- **A whole chain**, whose first opcode takes no carry. -/
theorem chainOf_carries (hquiet : QuietWrites host) {first next : Alu}
    (hfirst : first.Carries δ fun _ => 0) (hnext : next.Carries δ BitVec.toInt)
    (cycles cycles' : Word) {pairs : List (Operand × Operand)} (hpairs : pairs ≠ []) {vm : Vm}
    (hskip : vm.skip = false)
    (hfits : Fits
      (opsWords host (chainOf (storeOp cycles first) (storeOp cycles' next) pairs) vm)) :
    ∃ vm', RunCarries host δ 0 (chainOf (storeOp cycles first) (storeOp cycles' next) pairs) vm
      vm' := by
  cases pairs with
  | nil => exact absurd rfl hpairs
  | cons pair pairs =>
    exact RunCarries.cons hquiet hfirst cycles hskip (by simp [IsCarry]) hfits
      fun vm₁ hskip₁ hcarry₁ hfits₁ =>
        runOps_carries hquiet hnext cycles' pairs hskip₁ hcarry₁ hfits₁

/-! ### The numbers of a chain -/

theorem numberOf_map_load (vm : Vm) (dests : List Store) :
    numberOf (dests.map vm.load) = Nat.ofDigits 0x10000 (digitsAt vm dests) := by
  rw [numberOf, List.map_map]
  rfl

theorem numberOf_lt (words : List Word) : numberOf words < 2 ^ (16 * words.length) := by
  rw [pow_mul, ← List.length_map (f := BitVec.toNat)]
  refine Nat.ofDigits_lt_base_pow_length (by decide) fun x hx => ?_
  obtain ⟨w, -, rfl⟩ := List.mem_map.mp hx
  exact w.isLt

theorem length_chainOf (first next : Host → Vm → Operand → Operand → Option Vm)
    (pairs : List (Operand × Operand)) : (chainOf first next pairs).length = pairs.length := by
  cases pairs with
  | nil => rfl
  | cons pair pairs => simp [chainOf]

theorem length_opsWords {calls : List OpCall} {vm vm' : Vm} (h : runOps host calls vm = some vm') :
    (opsWords host calls vm).length = calls.length := by
  induction calls generalizing vm with
  | nil => rfl
  | cons call calls ih =>
    obtain ⟨op, b, a⟩ := call
    obtain ⟨vm₁, hop, hrest⟩ := Option.bind_eq_some_iff.mp h
    rw [opsWords_cons hop, List.length_cons, List.length_cons, ih hrest]

/-- **What a chain leaves**: the number in its destinations and `EX` make up the sum or
difference of the numbers it was given. -/
theorem RunCarries.number {calls : List OpCall} {vm vm' : Vm}
    (h : RunCarries host δ 0 calls vm vm') :
    (destNumber (opsWords host calls vm) vm' : ℤ) =
        (destNumber (opsWords host calls vm) vm + δ * sourceNumber (opsWords host calls vm)) %
          (2 ^ (16 * calls.length) : ℕ) ∧
      vm'.ex.toInt =
        (destNumber (opsWords host calls vm) vm + δ * sourceNumber (opsWords host calls vm)) /
          (2 ^ (16 * calls.length) : ℕ) := by
  have hdests : ∀ u : Vm, destNumber (opsWords host calls vm) u =
      Nat.ofDigits 0x10000 (digitsAt u ((opsWords host calls vm).map Prod.fst)) := by
    intro u
    rw [← numberOf_map_load, List.map_map]
    rfl
  have hsources : sourceNumber (opsWords host calls vm) =
      Nat.ofDigits 0x10000 ((opsWords host calls vm).map fun p => p.2.toNat) := by
    rw [sourceNumber, numberOf, List.map_map]
    rfl
  have hlength : (digitsAt vm ((opsWords host calls vm).map Prod.fst)).length = calls.length := by
    rw [digitsAt, List.length_map, List.length_map, length_opsWords h.run]
  have hpower : ((0x10000 : ℕ) : ℤ) ^ calls.length = (2 ^ (16 * calls.length) : ℕ) := by
    rw [pow_mul]
    push_cast
    rfl
  have hdigits := h.columns.ofDigits_eq (by decide)
  have hcarry := h.columns.carry_eq (by decide)
  rw [hlength, hpower, add_zero] at hdigits hcarry
  rw [hdests, hdests, hsources]
  exact ⟨hdigits, hcarry⟩

/-- The numbers of a run have as many words as there are opcodes. -/
theorem words_lt {calls : List OpCall} {vm vm' : Vm} (h : runOps host calls vm = some vm')
    (u : Vm) :
    destNumber (opsWords host calls vm) u < 2 ^ (16 * calls.length) ∧
      sourceNumber (opsWords host calls vm) < 2 ^ (16 * calls.length) := by
  have hdest := numberOf_lt ((opsWords host calls vm).map fun p => u.load p.1)
  have hsource := numberOf_lt ((opsWords host calls vm).map Prod.snd)
  rw [List.length_map, length_opsWords h] at hdest hsource
  exact ⟨hdest, hsource⟩

/-- **Chains add and subtract.** `ADD` on the lowest words and `ADX` on each next pair leave the
sum, and in `EX` the carry; `SUB` and `SBX` leave the difference, and in `EX` the borrow. -/
theorem chains_add_and_subtract (hquiet : QuietWrites host) {pairs : List (Operand × Operand)}
    (hpairs : pairs ≠ []) {vm : Vm} (hskip : vm.skip = false) :
    (∀ words, opsWords host (chainOf vmOpAdd vmOpAdx pairs) vm = words → Fits words →
      ∃ vm', runOps host (chainOf vmOpAdd vmOpAdx pairs) vm = some vm' ∧
        destNumber words vm' =
          (destNumber words vm + sourceNumber words) % 2 ^ (16 * pairs.length) ∧
        vm'.ex =
          if 2 ^ (16 * pairs.length) ≤ destNumber words vm + sourceNumber words then 1 else 0) ∧
    (∀ words, opsWords host (chainOf vmOpSub vmOpSbx pairs) vm = words → Fits words →
      ∃ vm', runOps host (chainOf vmOpSub vmOpSbx pairs) vm = some vm' ∧
        (destNumber words vm' : ℤ) =
          (destNumber words vm - sourceNumber words) % 2 ^ (16 * pairs.length) ∧
        vm'.ex = if destNumber words vm < sourceNumber words then 0xFFFF else 0) := by
  constructor
  · rintro words rfl hfits
    obtain ⟨vm', hrun : RunCarries host 1 0 (chainOf vmOpAdd vmOpAdx pairs) vm vm'⟩ :=
      chainOf_carries hquiet aluAdd_carries aluAdx_carries 2 3 hpairs hskip hfits
    obtain ⟨hnumber, hex⟩ := hrun.number
    have hlt := words_lt hrun.run vm
    rw [length_chainOf, one_mul] at hnumber hex
    rw [length_chainOf] at hlt
    refine ⟨vm', hrun.run, by exact_mod_cast hnumber, BitVec.eq_of_toInt_eq (hex.trans ?_)⟩
    rw [Int.ediv_eq_iff_of_pos (by omega)]
    split_ifs
    · rw [show (1 : Word).toInt = 1 from rfl]
      omega
    · rw [show (0 : Word).toInt = 0 from rfl]
      omega
  · rintro words rfl hfits
    obtain ⟨vm', hrun : RunCarries host (-1) 0 (chainOf vmOpSub vmOpSbx pairs) vm vm'⟩ :=
      chainOf_carries hquiet aluSub_carries aluSbx_carries 2 3 hpairs hskip hfits
    obtain ⟨hnumber, hex⟩ := hrun.number
    have hlt := words_lt hrun.run vm
    rw [length_chainOf, neg_one_mul, ← sub_eq_add_neg] at hnumber hex
    rw [length_chainOf] at hlt
    refine ⟨vm', hrun.run, by exact_mod_cast hnumber, BitVec.eq_of_toInt_eq (hex.trans ?_)⟩
    rw [Int.ediv_eq_iff_of_pos (by omega)]
    split_ifs
    · rw [show (0xFFFF : Word).toInt = -1 from rfl]
      omega
    · rw [show (0 : Word).toInt = 0 from rfl]
      omega

/-- A machine whose memory holds a number of two words at `0` and one at `2`, with registers
that point to them. -/
def twoNumbers : Vm where
  ram := fun addr => if addr = 0 then 0xFFFF else if addr = 1 then 0x0001 else
    if addr = 2 then 0x0003 else if addr = 3 then 0xFFFE else 0
  registers := fun r => BitVec.ofNat 16 r

theorem chains_add_and_subtract_twoNumbers :
    (∃ vm', runOps {} (chainOf vmOpAdd vmOpAdx [(.val 0, .val 2), (.val 1, .val 3)]) twoNumbers =
      some vm' ∧ vm'.ex = 1) ∧
    ∃ vm', runOps {} (chainOf vmOpSub vmOpSbx [(.val 0, .val 2), (.val 1, .val 3)]) twoNumbers =
      some vm' ∧ vm'.ex = 0xFFFF := by
  have hquiet : QuietWrites {} := fun pos vm => ⟨vm, rfl, rfl, rfl, rfl, rfl⟩
  obtain ⟨hadd, hsub⟩ := @chains_add_and_subtract {} hquiet [(.val 0, .val 2), (.val 1, .val 3)]
    (by simp) twoNumbers rfl
  obtain ⟨vm₁, hrun₁, -, hex₁⟩ := hadd [(.ram 0, 3), (.ram 1, 0xFFFE)] (by decide)
    ⟨by decide, by decide⟩
  obtain ⟨vm₂, hrun₂, -, hex₂⟩ := hsub [(.ram 0, 3), (.ram 1, 0xFFFE)] (by decide)
    ⟨by decide, by decide⟩
  exact ⟨⟨vm₁, hrun₁, hex₁.trans (by decide)⟩, vm₂, hrun₂, hex₂.trans (by decide)⟩

end DcpuToolchain
