import DcpuToolchain.Ld.Frame
import DcpuToolchain.Ld.Meaning

/-!
# Where `offset` bases a program

A policy may execute `offset` any number of times, in loops and in policies that it chains
into. Each time `policy_offset` adds the difference to the offset before, which the linker
remembers, to the words of the adjustment table. The differences telescope: only the last
offset counts (`DcpuToolchain.foldlM_policyOffset`).

What the words end as is another matter. A word that the table lists several times, as
`bins_resolve` leaves it of an optional entry that a library kept, is moved as often, and an
address outside of the code is a null pointer (`DcpuToolchain.offsets_based_iff`).
-/

namespace DcpuToolchain

/-! ### The offsets that are executed -/

section Offsets

variable (chain : String → PolicyUserdata → Except PolicyStop PolicyUserdata)
  (chainOffsets : String → PolicyUserdata → List Int)

/-- The offsets of a loop, from those of its body. -/
def forOffsets (body : PolicyState → Except PolicyStop PolicyState)
    (offsets : PolicyState → List Int) (position : ℕ) (target : Int) :
    (turns : ℕ) → PolicyState → List Int
  | 0, _ => []
  | turns + 1, s =>
    match s.vars[position]? with
    | none => []
    | some v =>
      if v.number < target then
        offsets s ++
          match body s with
          | .error _ => []
          | .ok s =>
            forOffsets body offsets position target turns
              { s with vars := s.vars.modify position fun v => { v with number := v.number + 1 } }
      else []

mutual

/-- **The numbers that an instruction calls `policy_offset` with**, in order. -/
def instructionOffsets : PolicyInstruction → PolicyState → List Int
  | .chain name, s => chainOffsets name s.userdata
  | .offset value, s =>
    match valueEvaluate s value with
    | .ok (.number number) => [number]
    | _ => []
  | .write _, _ => []
  | .loop forVariable forStart forEnd forInstructions, s =>
    if s.vars.any (·.name = forVariable) then []
    else
      match valueEvaluate s forStart, valueEvaluate s forEnd with
      | .ok (.number start), .ok (.number target) =>
        forOffsets (instructionsExecute chain forInstructions) (instructionsOffsets forInstructions)
          s.vars.length target (target - start).toNat
          { s with vars := s.vars ++ [⟨forVariable, start⟩] }
      | _, _ => []

/-- The numbers that instructions call it with, up to where one of them stops. -/
def instructionsOffsets : List PolicyInstruction → PolicyState → List Int
  | [], _ => []
  | inst :: instructions, s =>
    instructionOffsets inst s ++
      match instructionExecute chain inst s with
      | .error _ => []
      | .ok s => instructionsOffsets instructions s

end

end Offsets

/-- The numbers that a policy calls it with that is chained into, so many policies deep. -/
def chainOffsets (policies : List Policy) : (depth : ℕ) → String → PolicyUserdata → List Int
  | 0, _, _ => []
  | depth + 1, name, u =>
    match policiesGetPolicy policies name with
    | none => []
    | some policy =>
      instructionsOffsets (chainExecute policies depth) (chainOffsets policies depth)
        policy.instructions ⟨[], u⟩

/-- **The offsets that a policy executes** on a program, chained policies included. -/
def executedOffsets (policies : List Policy) (depth : ℕ) (instructions : List PolicyInstruction)
    (s : PolicyState) : List Int :=
  instructionsOffsets (chainExecute policies depth) (chainOffsets policies depth) instructions s

/-- The offset that is left of those that were executed behind another. -/
def lastOffset (offset : Word) (ps : List Int) : Word :=
  (ps.getLast?.map (BitVec.ofInt 16)).getD offset

/-- The program of a bin based at an offset: it is added to each word that is adjusted. -/
def basedWords (bin : LdBin) (offset : Word) : List Word :=
  bin.words.mapIdx fun i w =>
    if (bin.tables .adjustment).any (·.address = i) then w + offset else w

/-! ### Only `offset` changes the code -/

/-- The offsets take the code, and the offset that is remembered, from one to the other. -/
def OffsetsTo (u : PolicyUserdata) (ps : List Int) (v : PolicyUserdata) : Prop :=
  ∀ bin, ps.foldlM policyOffset { u with outputBin := bin } = .ok { v with outputBin := bin }

namespace OffsetsTo

variable {u v w : PolicyUserdata} {ps qs : List Int}

theorem refl (u : PolicyUserdata) : OffsetsTo u [] u := fun _ => rfl

theorem trans (h : OffsetsTo u ps v) (h' : OffsetsTo v qs w) : OffsetsTo u (ps ++ qs) w := by
  intro bin
  rw [List.foldlM_append, h bin]
  exact h' bin

theorem of_policyOffset {n : Int} (h : policyOffset u n = .ok v) : OffsetsTo u [n] v := by
  intro bin
  rw [List.foldlM_cons]
  unfold policyOffset at h ⊢
  dsimp only
  split at h
  · cases h
  · rename_i words hwords
    cases h
    rfl

theorem policyWrite (u : PolicyUserdata) (words : List Word) :
    OffsetsTo u [] (policyWrite u words) :=
  fun _ => rfl

end OffsetsTo

/-- A loop offsets the code as its turns do. -/
theorem offsetsTo_forLoop {body : PolicyState → Except PolicyStop PolicyState}
    {offsets : PolicyState → List Int}
    (hbody : ∀ s s', body s = .ok s' → OffsetsTo s.userdata (offsets s) s'.userdata)
    (position : ℕ) (target : Int) (turns : ℕ) (s s' : PolicyState)
    (hs : forLoop body position target turns s = .ok s') :
    OffsetsTo s.userdata (forOffsets body offsets position target turns s) s'.userdata := by
  induction turns generalizing s with
  | zero =>
    cases hs
    exact .refl _
  | succ turns ih =>
    rw [forLoop] at hs
    rw [forOffsets]
    rcases hv : s.vars[position]? with - | v <;> rw [hv] at hs
    · cases hs
    · dsimp only at hs ⊢
      split at hs
      · rename_i hlt
        rw [if_pos hlt]
        obtain ⟨t, ht, hs⟩ := exists_of_bind_eq_ok hs
        rw [ht]
        exact (hbody s t ht).trans (ih _ hs)
      · rename_i hge
        rw [if_neg hge]
        cases hs
        exact .refl _

section Execute

variable {chain : String → PolicyUserdata → Except PolicyStop PolicyUserdata}
  {offsets : String → PolicyUserdata → List Int}

mutual

/-- An instruction offsets the code by what it calls `policy_offset` with, and does nothing else
to it. -/
theorem offsetsTo_instructionExecute
    (hchain : ∀ name u v, chain name u = .ok v → OffsetsTo u (offsets name u) v) :
    (inst : PolicyInstruction) → ∀ s s', instructionExecute chain inst s = .ok s' →
      OffsetsTo s.userdata (instructionOffsets chain offsets inst s) s'.userdata
  | .chain name => by
    intro s s' hs
    rw [instructionExecute] at hs
    obtain ⟨u, hu, hs⟩ := exists_of_bind_eq_ok hs
    cases hs
    rw [instructionOffsets]
    exact hchain name s.userdata u hu
  | .offset value => by
    intro s s' hs
    rw [instructionExecute] at hs
    obtain ⟨result, hvalue, hs⟩ := exists_of_bind_eq_ok hs
    rw [instructionOffsets, hvalue]
    cases result with
    | list results => cases hs
    | number n =>
      obtain ⟨u, hu, hs⟩ := exists_of_bind_eq_ok hs
      cases hs
      exact .of_policyOffset hu
  | .write value => by
    intro s s' hs
    rw [instructionExecute] at hs
    obtain ⟨result, -, hs⟩ := exists_of_bind_eq_ok hs
    obtain ⟨words, -, hs⟩ := exists_of_bind_eq_ok hs
    cases hs
    rw [instructionOffsets]
    exact .policyWrite s.userdata words
  | .loop x start stop body => by
    intro s s' hs
    rw [instructionExecute] at hs
    rw [instructionOffsets]
    split at hs
    · cases hs
    · rename_i hfresh
      rw [if_neg hfresh]
      obtain ⟨first, hfirst, hs⟩ := exists_of_bind_eq_ok hs
      obtain ⟨last, hlast, hs⟩ := exists_of_bind_eq_ok hs
      rw [hfirst, hlast]
      cases last with
      | list results => cases hs
      | number target =>
        cases first with
        | list results => cases hs
        | number k =>
          obtain ⟨t, ht, hs⟩ := exists_of_bind_eq_ok hs
          cases hs
          exact offsetsTo_forLoop (offsetsTo_instructionsExecute hchain body) _ _ _ _ _ ht

theorem offsetsTo_instructionsExecute
    (hchain : ∀ name u v, chain name u = .ok v → OffsetsTo u (offsets name u) v) :
    (instructions : List PolicyInstruction) → ∀ s s',
      instructionsExecute chain instructions s = .ok s' →
        OffsetsTo s.userdata (instructionsOffsets chain offsets instructions s) s'.userdata
  | [] => by
    intro s s' hs
    rw [instructionsExecute] at hs
    cases hs
    rw [instructionsOffsets]
    exact .refl _
  | inst :: instructions => by
    intro s s' hs
    rw [instructionsExecute] at hs
    obtain ⟨t, ht, hs⟩ := exists_of_bind_eq_ok hs
    rw [instructionsOffsets, ht]
    exact (offsetsTo_instructionExecute hchain inst s t ht).trans
      (offsetsTo_instructionsExecute hchain instructions t s' hs)

end

end Execute

/-- So does a policy that is chained into, however deep it chains itself. -/
theorem offsetsTo_chainExecute (policies : List Policy) (depth : ℕ) (name : String)
    (u v : PolicyUserdata) (h : chainExecute policies depth name u = .ok v) :
    OffsetsTo u (chainOffsets policies depth name u) v := by
  induction depth generalizing name u v with
  | zero => cases h
  | succ depth ih =>
    rw [chainExecute] at h
    rw [chainOffsets]
    rcases hpolicy : policiesGetPolicy policies name with - | policy <;> rw [hpolicy] at h
    · cases h
    · obtain ⟨s, hs, h⟩ := exists_of_bind_eq_ok h
      cases h
      exact offsetsTo_instructionsExecute ih policy.instructions ⟨[], u⟩ s hs

/-! ### The differences telescope -/

section Telescope

variable {bin out : LdBin}

/-- The linker's data where the code is at an offset. -/
def userdataAt (bin out : LdBin) (offset : Word) : PolicyUserdata where
  codeBin := { bin with words := offsetWords bin offset }
  outputBin := out
  previousOffset := offset

theorem offsetWords_zero (bin : LdBin) : offsetWords bin 0 = bin.words := by
  refine List.ext_getElem List.length_mapIdx fun i hi hi' => ?_
  simp [offsetWords]

theorem userdataAt_zero (bin out : LdBin) : userdataAt bin out 0 = ⟨bin, out, 0⟩ := by
  rw [userdataAt, offsetWords_zero]

/-- What the loop of `policy_offset` is given. -/
theorem offsetLoop_userdataAt (offset : Word) (n : Int) :
    offsetLoop (BitVec.ofInt 16 n - (userdataAt bin out offset).previousOffset)
        ((userdataAt bin out offset).codeBin.tables .adjustment)
        (userdataAt bin out offset).codeBin.words =
      offsetLoop (BitVec.ofInt 16 n - offset) (bin.tables .adjustment) (offsetWords bin offset) :=
  rfl

/-- `policy_offset` takes the code from one offset to another, whatever the first was. -/
theorem policyOffset_userdataAt (h : ∀ e ∈ bin.tables .adjustment, e.address < bin.words.length)
    (offset : Word) (n : Int) :
    policyOffset (userdataAt bin out offset) n =
      .ok (userdataAt bin out (BitVec.ofInt 16 n)) := by
  have hlength : (offsetWords bin offset).length = bin.words.length := List.length_mapIdx
  have hloop := @offsetLoop_of_lt (BitVec.ofInt 16 n - offset) _ (offsetWords bin offset)
    (by rw [hlength]; exact h)
  have hwords : ((offsetWords bin offset).mapIdx fun i w =>
      w + BitVec.ofNat 16 ((bin.tables .adjustment).countP (·.address = i)) *
        (BitVec.ofInt 16 n - offset)) = offsetWords bin (BitVec.ofInt 16 n) := by
    refine List.ext_getElem (by simp [offsetWords]) fun i hi hi' => ?_
    simp only [offsetWords, List.getElem_mapIdx]
    ring
  rw [hwords] at hloop
  rw [policyOffset, offsetLoop_userdataAt, hloop]
  rfl

theorem policyOffset_not_lt (h : ¬ ∀ e ∈ bin.tables .adjustment, e.address < bin.words.length)
    (offset : Word) (n : Int) :
    policyOffset (userdataAt bin out offset) n = .error .nullPointer := by
  have hlength : (offsetWords bin offset).length = bin.words.length := List.length_mapIdx
  have hloop := @offsetLoop_of_not_lt (BitVec.ofInt 16 n - offset) _ (offsetWords bin offset)
    (by rw [hlength]; exact h)
  rw [policyOffset, offsetLoop_userdataAt, hloop]

theorem lastOffset_cons (offset : Word) (p : Int) (ps : List Int) :
    lastOffset offset (p :: ps) = lastOffset (BitVec.ofInt 16 p) ps := by
  rw [lastOffset, lastOffset, List.getLast?_cons, Option.map_some, Option.getD_some]
  cases ps.getLast? <;> rfl

/-- **The differences telescope**: after any offsets the code is at the last of them. -/
theorem foldlM_policyOffset (h : ∀ e ∈ bin.tables .adjustment, e.address < bin.words.length)
    (offset : Word) (ps : List Int) :
    ps.foldlM policyOffset (userdataAt bin out offset) =
      .ok (userdataAt bin out (lastOffset offset ps)) := by
  induction ps generalizing offset with
  | nil => rfl
  | cons p ps ih =>
    rw [List.foldlM_cons, policyOffset_userdataAt h, lastOffset_cons]
    exact ih _

theorem foldlM_policyOffset_not_lt
    (h : ¬ ∀ e ∈ bin.tables .adjustment, e.address < bin.words.length)
    (offset : Word) {ps : List Int} (hps : ps ≠ []) :
    ps.foldlM policyOffset (userdataAt bin out offset) = .error .nullPointer := by
  obtain ⟨p, ps, rfl⟩ := List.exists_cons_of_ne_nil hps
  rw [List.foldlM_cons, policyOffset_not_lt h]
  rfl

end Telescope

/-! ### Where the program is based -/

/-- Moving each word once for each adjustment bases the program exactly if that comes to the
same as moving it once. -/
theorem offsetWords_eq_basedWords_iff {bin : LdBin} {offset : Word}
    (h : ∀ e ∈ bin.tables .adjustment, e.address < bin.words.length) :
    offsetWords bin offset = basedWords bin offset ↔
      ∀ e ∈ bin.tables .adjustment,
        BitVec.ofNat 16 ((bin.tables .adjustment).countP (·.address = e.address)) * offset =
          offset := by
  constructor
  · intro heq e he
    have hword := congrArg (·[e.address]?) heq
    have hany : (bin.tables .adjustment).any (·.address = e.address) = true :=
      List.any_eq_true.mpr ⟨e, he, decide_eq_true rfl⟩
    simp only [offsetWords, basedWords, List.getElem?_mapIdx, List.getElem?_eq_getElem (h e he),
      Option.map_some, hany, if_true, Option.some.injEq] at hword
    exact add_left_cancel hword
  · intro hcount
    refine List.ext_getElem (by simp [offsetWords, basedWords]) fun i hi hi' => ?_
    simp only [offsetWords, basedWords, List.getElem_mapIdx]
    split
    · rename_i hany
      obtain ⟨e, he, hei⟩ := List.any_eq_true.mp hany
      obtain rfl : e.address = i := of_decide_eq_true hei
      rw [hcount e he]
    · rename_i hany
      -- a word that is not listed is not moved
      have hzero : (bin.tables .adjustment).countP (·.address = i) = 0 :=
        List.countP_eq_zero.mpr fun e he hei => hany (List.any_eq_true.mpr ⟨e, he, hei⟩)
      rw [hzero]
      simp

/-- **The offsets that a policy executes base the program at the last of them** exactly if there
are none, or every address that is listed is in the code and is listed so often that moving
its word as often is moving it once. Whatever else the policy does leaves the code alone. -/
theorem offsets_based_iff (policies : List Policy) (depth : ℕ)
    (instructions : List PolicyInstruction) (vars : List PolicyVariable) (code out : LdBin) :
    let ps := executedOffsets policies depth instructions ⟨vars, ⟨code, out, 0⟩⟩
    (∀ s, instructionsExecute (chainExecute policies depth) instructions ⟨vars, ⟨code, out, 0⟩⟩ =
        .ok s →
      ∃ u, ps.foldlM policyOffset ⟨code, out, 0⟩ = .ok u ∧
        policyCode s.userdata = policyCode u) ∧
    ((∃ u, ps.foldlM policyOffset ⟨code, out, 0⟩ = .ok u ∧
        policyCode u = basedWords code (lastOffset 0 ps)) ↔
      ps = [] ∨ ∀ e ∈ code.tables .adjustment, e.address < code.words.length ∧
        BitVec.ofNat 16 ((code.tables .adjustment).countP (·.address = e.address)) *
          lastOffset 0 ps = lastOffset 0 ps) := by
  intro ps
  constructor
  · intro s hs
    exact ⟨_, offsetsTo_instructionsExecute (offsetsTo_chainExecute policies depth)
      instructions _ _ hs out, rfl⟩
  · rcases eq_or_ne ps [] with hnil | hne
    · -- no offset is executed, not even offset(0): an address outside the code does no harm
      rw [hnil]
      refine iff_of_true ⟨_, rfl, ?_⟩ (.inl rfl)
      rw [policyCode, basedWords]
      refine List.ext_getElem (by simp) fun i hi hi' => ?_
      simp [lastOffset]
    · rw [← userdataAt_zero]
      by_cases h : ∀ e ∈ code.tables .adjustment, e.address < code.words.length
      · rw [foldlM_policyOffset h]
        simp only [Except.ok.injEq, exists_eq_left', hne, false_or]
        rw [show policyCode (userdataAt code out (lastOffset 0 ps)) =
          offsetWords code (lastOffset 0 ps) from rfl, offsetWords_eq_basedWords_iff h]
        exact forall₂_congr fun e he => (and_iff_right (h e he)).symm
      · rw [foldlM_policyOffset_not_lt h 0 hne]
        refine iff_of_false (by rintro ⟨u, hu, -⟩; cases hu) ?_
        rintro (hnil | hall)
        · exact hne hnil
        · exact h fun e he => (hall e he).1

/-- A bin of one word that is listed twice, as of an optional entry that is resolved in a library
and once more where the library is linked. -/
def twiceAdjusted : LdBin :=
  { binCreate "app".toList with
    words := [5]
    tables := fun t => if t = .adjustment then
      [⟨['f'], some "app".toList, 0⟩, ⟨['f'], some "app".toList, 0⟩] else [] }

/-- Its word is moved twice. -/
theorem not_forall_offsets_based :
    ¬ ∀ (policies : List Policy) (depth : ℕ) (instructions : List PolicyInstruction)
      (vars : List PolicyVariable) (code out : LdBin) (s : PolicyState),
      instructionsExecute (chainExecute policies depth) instructions ⟨vars, ⟨code, out, 0⟩⟩ =
          .ok s →
        policyCode s.userdata = basedWords code
          (lastOffset 0 (executedOffsets policies depth instructions ⟨vars, ⟨code, out, 0⟩⟩)) := by
  intro h
  have hexecute : instructionsExecute (chainExecute [] 1) [.offset (.number 0x100)]
      ⟨[], ⟨twiceAdjusted, binCreate [], 0⟩⟩ =
      .ok ⟨[], userdataAt twiceAdjusted (binCreate []) 0x100⟩ := by
    rfl
  have hwords := h [] 1 [.offset (.number 0x100)] [] twiceAdjusted (binCreate []) _ hexecute
  exact absurd hwords (by decide)

end DcpuToolchain
