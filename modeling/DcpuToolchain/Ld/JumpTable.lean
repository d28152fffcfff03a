import DcpuToolchain.Ld.Directives

/-!
# Writing the jump table

A kernel says by an entry without a name where its jump table is, and by entries with names
which functions are in it. `bins_write_jump` inserts a word for each of these at the table, one
behind the other, and every insertion moves what is behind it: functions that are not in the
table yet, functions whose addresses already are, and the end of the table itself.

The addresses in the table are adjusted words like any others, so they move with the functions.
The state between two turns of the loop is therefore the original bin with the slots that are
done inserted at once (`DcpuToolchain.JumpsWritten`), and this is kept by a turn
(`DcpuToolchain.JumpsWritten.step`) as long as the adjustments list every word once
(`DcpuToolchain.binsWriteJump_ok`). A word that is listed twice is moved twice.
-/

namespace DcpuToolchain

open Marks

/-! ### The code -/

/-- The address of the jump table: that of the first entry without a name. -/
def LdBin.jumpTable (b : LdBin) : Option ℕ :=
  ((b.tables .jump).find? (·.label = [])).map LconvEntry.address

/-- The address of a function is written to its slot, the slot is adjusted, and the `i`-th
entry of the jump list, that of the function, is now one of the slot. -/
def LdBin.fillSlot (b : LdBin) (i : ℕ) (entry : LconvEntry) (pos : ℕ) : LdBin where
  name := b.name
  words := b.words.set pos (BitVec.ofNat 16 entry.address)
  tables
    | .jump => (b.tables .jump).set i ⟨entry.label, entry.bin, pos⟩
    | .adjustment => b.tables .adjustment ++ [⟨[], some b.name, pos⟩]
    | t => b.tables t
  symbols := b.symbols

/-- The loop of `bins_write_jump`, over the positions of the jump list; `temp` is where the
temporary bin is created. -/
def writeJumps (ls : ListSort) (bin temp : BinPtr) : List ℕ → ℕ → Heap → Except LdError Heap
  | [], _, heap => .ok heap
  | i :: is, pos, heap =>
    match ((heap bin).tables .jump)[i]? with
    | none => .ok heap
    | some entry =>
      if entry.label = [] then writeJumps ls bin temp is pos heap
      else do
        let heap ← binMove ls false [bin] bin temp pos 0 1
          (Function.update heap temp (tempBin [0]))
        binsPrint heap [bin]
        -- `entry` points into the list, where the move has changed it
        match ((heap bin).tables .jump)[i]?, (heap bin).words[pos]? with
        | some entry, some _ =>
          let heap := Function.update heap bin ((heap bin).fillSlot i entry pos)
          binsPrint heap [bin]
          writeJumps ls bin temp is (u16 (pos + 1)) heap
        | _, _ => .error .nullPointer

/-- `bins_write_jump`. -/
def binsWriteJump (ls : ListSort) (s : LdBins) : Except LdError LdBins :=
  match s.bins with
  | [bin] =>
    match (s.heap bin).jumpTable with
    | none => .ok s
    | some pos => do
      binsPrint s.heap [bin]
      let heap ← writeJumps ls bin s.next (List.range ((s.heap bin).tables .jump).length) pos s.heap
      .ok ⟨heap, [bin], s.next⟩
  | _ => .error .assertion

/-! ### What it is for -/

/-- The entries with names. -/
def jumpFunctions (jump : List LconvEntry) : List LconvEntry := jump.filter (·.label ≠ [])

/-- An entry that was moved by an insertion. -/
def movedEntry (pos n : ℕ) (e : LconvEntry) : LconvEntry :=
  ⟨e.label, e.bin, movedBy pos n e.address⟩

/-- The entries of a jump list when they are in the table, the first of them in the slot given. -/
def slotted (pos n : ℕ) : (slot : ℕ) → List LconvEntry → List LconvEntry
  | _, [] => []
  | slot, e :: es =>
    if e.label = [] then movedEntry pos n e :: slotted pos n slot es
    else ⟨e.label, e.bin, slot⟩ :: slotted pos n (slot + 1) es

/-- A label that was moved with the words of a bin of the size given. -/
def MovedLabel {E : Type} [Addressed E] (pos n size : ℕ) (e e' : E) : Prop :=
  e' = withAddress e (address e') ∧ (address e ≤ size → address e' = movedBy pos n (address e))

/-- **A bin with the first entries of its jump list in the table at `pos`**: there is a slot for
each of those that have a name, it holds the address that the function now has, and is listed as
an adjusted word. All else is as it was, but moved by the slots. -/
structure JumpsWritten (b : LdBin) (pos : ℕ) (done rest : List LconvEntry) (b' : LdBin) :
    Prop where
  name : b'.name = b.name
  length : b'.words.length = b.words.length + (jumpFunctions done).length
  /-- The slots, in the order of the list. -/
  slot : ∀ t e, (jumpFunctions done)[t]? = some e →
    b'.words[pos + t]? = some (BitVec.ofNat 16 (movedBy pos (jumpFunctions done).length e.address))
  /-- Words that are not addresses of the bin. -/
  word : ∀ i w, b.words[i]? = some w → ¬ b.ownAt i →
    b'.words[movedBy pos (jumpFunctions done).length i]? = some w
  /-- Words that are. -/
  adjusted : ∀ i w, b.words[i]? = some w → b.ownAt i → w.toNat ≤ b.words.length →
    b'.words[movedBy pos (jumpFunctions done).length i]? =
      some (BitVec.ofNat 16 (movedBy pos (jumpFunctions done).length w.toNat))
  adjustment : b'.tables .adjustment =
    (b.tables .adjustment).map (movedEntry pos (jumpFunctions done).length) ++
      (List.range (jumpFunctions done).length).map fun t => ⟨[], some b.name, pos + t⟩
  jump : b'.tables .jump = slotted pos (jumpFunctions done).length pos done ++
    rest.map (movedEntry pos (jumpFunctions done).length)
  labels : ∀ t, t ≠ .section → t ≠ .output → t ≠ .adjustment → t ≠ .jump →
    List.Forall₂ (MovedLabel pos (jumpFunctions done).length b.words.length) (b.tables t)
      (b'.tables t)
  symbols :
    List.Forall₂ (MovedLabel pos (jumpFunctions done).length b.words.length) b.symbols b'.symbols

/-- **The bin of a kernel**: each adjusted word is listed once, the entries of the jump list are
in the bin, and it has room for the jump table. -/
structure KernelBin (b : LdBin) : Prop extends WellAdjusted b where
  name_ne : b.name ≠ tempName
  jump_le : ∀ e ∈ b.tables .jump, e.address ≤ b.words.length
  fits : b.words.length + (jumpFunctions (b.tables .jump)).length < 0x10000

/-! ### Insertions behind the slots that are done -/

section Moves

variable {pos n size x t : ℕ}

/-- A word that is inserted behind others moves what is behind them by one more. -/
theorem movedBy_succ (pos n x : ℕ) :
    movedBy (pos + n) 1 (movedBy pos n x) = movedBy pos (n + 1) x := by
  rw [movedBy, movedBy, movedBy]
  split <;> split <;> omega

/-- The slots before it are not moved. -/
theorem movedBy_slot (ht : t < n) : movedBy (pos + n) 1 (pos + t) = pos + t :=
  if_neg (by omega)

/-- Nothing is moved into a slot. -/
theorem movedBy_ne_slot (ht : t < n) : movedBy pos n x ≠ pos + t := by
  rw [movedBy]
  split <;> omega

theorem movedBy_le (hx : x ≤ size) : movedBy pos n x ≤ size + n := by
  rw [movedBy]
  split <;> omega

theorem movedBy_lt (hx : x < size) : movedBy pos n x < size + n := by
  rw [movedBy]
  split <;> omega

theorem movedEntry_zero (pos : ℕ) : movedEntry pos 0 = id := by
  funext e
  rw [movedEntry, movedBy_zero]
  rfl

theorem shiftUp_movedEntry {e : LconvEntry} (he : e.address ≤ size)
    (hfit : size + n + 1 < 0x10000) :
    shiftUp (pos + n) 1 (movedEntry pos n e) = movedEntry pos (n + 1) e := by
  have hle : movedBy pos n e.address ≤ size + n := movedBy_le he
  rw [shiftUp_eq (show movedBy pos n e.address + 1 < 0x10000 by omega), movedEntry, movedBy_succ]
  rfl

theorem MovedLabel.shiftUp {E : Type} [Addressed E] {e e' : E} (h : MovedLabel pos n size e e')
    (hfit : size + n + 1 < 0x10000) :
    MovedLabel pos (n + 1) size e (shiftUp (pos + n) 1 e') := by
  obtain ⟨hsame, haddress⟩ := h
  refine ⟨?_, fun hle => ?_⟩
  · rw [DcpuToolchain.shiftUp]
    split
    · rw [Addressed.address_withAddress]
      exact (congrArg (withAddress · _) hsame).trans (Addressed.withAddress_withAddress ..)
    · exact hsame
  · have hsmall : movedBy pos n (address e) ≤ size + n := movedBy_le hle
    rw [← movedBy_succ, ← haddress hle, DcpuToolchain.shiftUp, movedBy]
    split
    · rw [Addressed.address_withAddress, u16_of_lt (by rw [haddress hle]; omega)]
    · rfl

end Moves

/-! ### The jump list -/

section List

variable {pos n slot : ℕ}

theorem jumpFunctions_append (l l' : List LconvEntry) :
    jumpFunctions (l ++ l') = jumpFunctions l ++ jumpFunctions l' :=
  List.filter_append ..

theorem jumpFunctions_unnamed {e : LconvEntry} (he : e.label = []) : jumpFunctions [e] = [] := by
  simp [jumpFunctions, he]

theorem jumpFunctions_named {e : LconvEntry} (he : e.label ≠ []) : jumpFunctions [e] = [e] := by
  simp [jumpFunctions, he]

theorem length_slotted (pos n slot : ℕ) (l : List LconvEntry) :
    (slotted pos n slot l).length = l.length := by
  induction l generalizing slot with
  | nil => rfl
  | cons e l ih =>
    rw [slotted]
    split <;> simp [ih]

theorem slotted_append (pos n slot : ℕ) (l : List LconvEntry) (e : LconvEntry) :
    slotted pos n slot (l ++ [e]) =
      slotted pos n slot l ++ slotted pos n (slot + (jumpFunctions l).length) [e] := by
  induction l generalizing slot with
  | nil => rfl
  | cons e' l ih =>
    rw [List.cons_append, slotted, slotted, jumpFunctions]
    by_cases he' : e'.label = []
    · rw [if_pos he', if_pos he', ih, List.filter_cons_of_neg (by simp [he'])]
      rfl
    · rw [if_neg he', if_neg he', ih, List.filter_cons_of_pos (by simp [he']), List.length_cons,
        Nat.add_right_comm, Nat.add_assoc]
      rfl

/-- The entries in the table stay in it. -/
theorem map_shiftUp_slotted {size : ℕ} {l : List LconvEntry} (hl : ∀ e ∈ l, e.address ≤ size)
    (hslot : slot + (jumpFunctions l).length ≤ pos + n) (hfit : size + n + 1 < 0x10000) :
    (slotted pos n slot l).map (shiftUp (pos + n) 1) = slotted pos (n + 1) slot l := by
  induction l generalizing slot with
  | nil => rfl
  | cons e l ih =>
    rw [List.forall_mem_cons] at hl
    rw [slotted, slotted]
    by_cases he : e.label = []
    · rw [jumpFunctions, List.filter_cons_of_neg (by simp [he])] at hslot
      rw [if_pos he, if_pos he, List.map_cons, ih hl.2 hslot, shiftUp_movedEntry hl.1 hfit]
    · rw [jumpFunctions, List.filter_cons_of_pos (by simp [he]), List.length_cons] at hslot
      change slot + ((jumpFunctions l).length + 1) ≤ pos + n at hslot
      rw [if_neg he, if_neg he, List.map_cons, ih hl.2 (by omega)]
      refine congrArg (· :: _) (if_neg ?_)
      change ¬pos + n ≤ slot
      omega

end List

/-! ### One turn of the loop -/

namespace JumpsWritten

variable {b b₁ b₂ : LdBin} {pos : ℕ} {done rest : List LconvEntry}

/-- Nothing is written yet. -/
theorem start (b : LdBin) (pos : ℕ) : JumpsWritten b pos [] (b.tables .jump) b where
  name := rfl
  length := rfl
  slot t e he := by cases he
  word i w hw _ := by rwa [show (jumpFunctions []).length = 0 from rfl, movedBy_zero]
  adjusted i w hw _ _ := by
    rw [show (jumpFunctions []).length = 0 from rfl, movedBy_zero, movedBy_zero, BitVec.ofNat_toNat,
      BitVec.setWidth_eq, hw]
  adjustment := by simp [jumpFunctions, movedEntry_zero]
  jump := by simp [jumpFunctions, slotted, movedEntry_zero]
  labels t _ _ _ _ := List.forall₂_same.mpr fun e _ =>
    ⟨rfl, fun _ => (movedBy_zero pos _).symm⟩
  symbols := List.forall₂_same.mpr fun e _ => ⟨rfl, fun _ => (movedBy_zero pos _).symm⟩

/-- A table position has no slot. -/
theorem unnamed {e : LconvEntry} (h : JumpsWritten b pos done (e :: rest) b₁) (he : e.label = []) :
    JumpsWritten b pos (done ++ [e]) rest b₁ := by
  have hsame : jumpFunctions (done ++ [e]) = jumpFunctions done := by
    rw [jumpFunctions_append, jumpFunctions_unnamed he, List.append_nil]
  refine ⟨h.name, ?_, ?_, ?_, ?_, ?_, ?_, ?_, ?_⟩ <;> rw [hsame]
  · exact h.length
  · exact h.slot
  · exact h.word
  · exact h.adjusted
  · exact h.adjustment
  · rw [h.jump, slotted_append, List.append_assoc]
    simp [slotted, he]
  · exact h.labels
  · exact h.symbols

/-- The adjustments of the bin and those of the slots. -/
theorem mem_adjustment (h : JumpsWritten b pos done rest b₁) {e : LconvEntry} :
    e ∈ b₁.tables .adjustment ↔
      (∃ e' ∈ b.tables .adjustment, movedEntry pos (jumpFunctions done).length e' = e) ∨
        ∃ t < (jumpFunctions done).length, (⟨[], some b.name, pos + t⟩ : LconvEntry) = e := by
  rw [h.adjustment, List.mem_append, List.mem_map, List.mem_map]
  simp only [List.mem_range]

theorem wellAdjusted (h : JumpsWritten b pos done rest b₁) (hb : KernelBin b)
    (hpos : pos ≤ b.words.length) : WellAdjusted b₁ where
  nodup := by
    rw [h.adjustment, List.map_append, List.map_map, List.map_map, List.nodup_append]
    refine ⟨?_, ?_, ?_⟩
    · have hmap : LconvEntry.address ∘ movedEntry pos (jumpFunctions done).length =
          movedBy pos (jumpFunctions done).length ∘ LconvEntry.address := rfl
      rw [hmap, ← List.map_map]
      exact hb.nodup.map fun _ _ => movedBy_inj
    · exact List.nodup_range.map fun _ _ => Nat.add_left_cancel
    · rintro x hx y hy rfl
      obtain ⟨e, -, hx⟩ := List.mem_map.mp hx
      obtain ⟨t, ht, hy⟩ := List.mem_map.mp hy
      exact movedBy_ne_slot (List.mem_range.mp ht) (hx.trans hy.symm)
  lt e he := by
    rw [h.length]
    rcases h.mem_adjustment.mp he with ⟨e', he', rfl⟩ | ⟨t, ht, rfl⟩
    · exact movedBy_lt (hb.lt e' he')
    · change pos + t < _
      omega
  named e he := by
    rcases h.mem_adjustment.mp he with ⟨e', he', rfl⟩ | ⟨t, ht, rfl⟩
    · exact hb.named e' he'
    · exact ⟨b.name, rfl, hb.name_ne⟩

theorem ownAt_iff (h : JumpsWritten b pos done rest b₁) (i : ℕ) :
    b₁.ownAt (movedBy pos (jumpFunctions done).length i) ↔ b.ownAt i := by
  rw [LdBin.ownAt, LdBin.ownAt, h.name]
  constructor
  · rintro ⟨e, he, hi, hbin⟩
    rcases h.mem_adjustment.mp he with ⟨e', he', rfl⟩ | ⟨t, ht, rfl⟩
    · exact ⟨e', he', movedBy_inj hi, hbin⟩
    · exact absurd hi.symm (movedBy_ne_slot ht)
  · rintro ⟨e, he, rfl, hbin⟩
    exact ⟨_, h.mem_adjustment.mpr (.inl ⟨e, he, rfl⟩), rfl, hbin⟩

theorem ownAt_slot (h : JumpsWritten b pos done rest b₁) {t : ℕ}
    (ht : t < (jumpFunctions done).length) : b₁.ownAt (pos + t) :=
  ⟨_, h.mem_adjustment.mpr (.inr ⟨t, ht, rfl⟩), rfl, by rw [h.name]⟩

/-- **A slot is inserted behind those that are done and filled.** -/
theorem step {e : LconvEntry} (h : JumpsWritten b pos done (e :: rest) b₁)
    (hjump : b.tables .jump = done ++ e :: rest) (hb : KernelBin b) (hpos : pos ≤ b.words.length)
    (he : e.label ≠ []) (hgained : Gained b₁ (pos + (jumpFunctions done).length) [0] b₂)
    (hsymbols : b₂.symbols = b₁.symbols.map (shiftUp (pos + (jumpFunctions done).length) 1)) :
    JumpsWritten b pos (done ++ [e]) rest
      (b₂.fillSlot done.length (movedEntry pos ((jumpFunctions done).length + 1) e)
        (pos + (jumpFunctions done).length)) := by
  have hlength : (jumpFunctions (done ++ [e])).length = (jumpFunctions done).length + 1 := by
    rw [jumpFunctions_append, jumpFunctions_named he, List.length_append, List.length_singleton]
  have hfit : b.words.length + (jumpFunctions done).length + 1 < 0x10000 := by
    have hfits := hb.fits
    rw [hjump, ← List.singleton_append, jumpFunctions_append, jumpFunctions_append,
      jumpFunctions_named he, List.length_append, List.length_append,
        List.length_singleton] at hfits
    omega
  have hle : ∀ e' ∈ done ++ e :: rest, e'.address ≤ b.words.length :=
    fun e' he' => hb.jump_le e' (hjump ▸ he')
  have hsize := h.length
  set n := (jumpFunctions done).length with hn
  have ha : pos + n ≤ b₁.words.length := by omega
  have hlength₂ : b₂.words.length = b₁.words.length + 1 := hgained.length_words ha
  obtain ⟨ws, hwords, hws, hother, hown⟩ := hgained.words
  have hget : ∀ i, b₂.words[movedBy (pos + n) 1 i]? = ws[i]? := fun i => by
    rw [hwords]
    exact getElem?_inserted (hws.symm ▸ ha) i
  -- filling the slot changes the word of the slot alone
  have hset : ∀ i, (b₂.words.set (pos + n) (BitVec.ofNat 16 (movedBy pos (n + 1) e.address)))[
      movedBy (pos + n) 1 i]? = ws[i]? := fun i => by
    rw [List.getElem?_set_ne, hget]
    exact fun h => movedBy_ne_slot (t := 0) Nat.one_pos (by rw [Nat.add_zero]; exact h.symm)
  -- what the walk makes of a word that already has the address of a function, or any other
  have hmoved : ∀ i x, x ≤ b.words.length → b₁.ownAt i →
      b₁.words[i]? = some (BitVec.ofNat 16 (movedBy pos n x)) →
      ws[i]? = some (BitVec.ofNat 16 (movedBy pos (n + 1) x)) := by
    intro i x hx hi hword
    have hsmall : movedBy pos n x ≤ b.words.length + n := movedBy_le hx
    rw [hown i _ hword hi, BitVec.toNat_ofNat, Nat.mod_eq_of_lt (by omega), List.length_singleton,
      movedBy_succ]
  refine ⟨hgained.name.trans h.name, ?_, ?_, ?_, ?_, ?_, ?_, ?_, ?_⟩ <;> rw [hlength]
  · change (b₂.words.set _ _).length = _
    rw [List.length_set]
    omega
  · intro t f hf
    rw [jumpFunctions_append, jumpFunctions_named he] at hf
    rcases Nat.lt_trichotomy t n with ht | rfl | ht
    · -- a slot that was there before
      rw [List.getElem?_append_left ht] at hf
      have hfle := hle f (List.mem_append_left _ (List.mem_of_mem_filter (List.mem_of_getElem? hf)))
      have hat := hset (pos + t)
      rw [movedBy_slot ht] at hat
      exact hat.trans (hmoved _ _ hfle (h.ownAt_slot ht) (h.slot t f hf))
    · rw [List.getElem?_append_right le_rfl, Nat.sub_self, List.getElem?_cons_zero,
        Option.some_inj] at hf
      subst hf
      exact List.getElem?_set_self (by omega)
    · rw [List.getElem?_eq_none (by simp; omega)] at hf
      cases hf
  · -- words that are no addresses move with their place
    intro i w hw hi
    rw [← movedBy_succ]
    refine (hset _).trans (hother _ _ (h.word i w hw hi) ?_)
    rwa [h.ownAt_iff]
  · intro i w hw hi hwle
    conv_lhs => rw [← movedBy_succ]
    exact (hset _).trans (hmoved _ _ hwle ((h.ownAt_iff i).mpr hi) (h.adjusted i w hw hi hwle))
  · -- the entries of the slots lie before the new slot and are not shifted
    change b₂.tables .adjustment ++ _ = _
    rw [hgained.tables _ (by decide) (by decide), h.adjustment, List.map_append, List.map_map,
      List.map_map, List.range_succ, List.map_append, List.append_assoc, List.length_singleton,
      hgained.name, h.name]
    congr 1
    · exact List.map_congr_left fun e' he' => shiftUp_movedEntry (hb.lt e' he').le hfit
    · congr 1
      refine List.map_congr_left fun t ht => if_neg ?_
      change ¬pos + n ≤ pos + t
      have := List.mem_range.mp ht
      omega
  · change (b₂.tables .jump).set _ _ = _
    rw [hgained.tables _ (by decide) (by decide), h.jump, List.map_append, List.map_map,
      List.length_singleton, map_shiftUp_slotted (fun e' he' => hle e' (List.mem_append_left _ he'))
        le_rfl hfit, List.set_append_right _ _ (by rw [length_slotted]), length_slotted,
      Nat.sub_self, List.map_cons, List.set_cons_zero, slotted_append, List.append_assoc]
    simp only [slotted, if_neg he, List.singleton_append]
    refine congrArg (fun l => _ ++ _ :: l) (List.map_congr_left fun e' he' => ?_)
    exact shiftUp_movedEntry
      (hle e' (List.mem_append_right _ (List.mem_cons_of_mem _ he'))) hfit
  · intro t hsection houtput hadjustment hjump'
    have htable : (b₂.fillSlot done.length (movedEntry pos (n + 1) e) (pos + n)).tables t =
        b₂.tables t := by
      cases t <;> first | rfl | contradiction
    rw [htable, hgained.tables t hsection houtput, List.forall₂_map_right_iff]
    exact (h.labels t hsection houtput hadjustment hjump').imp fun _ _ hlabel => hlabel.shiftUp hfit
  · change List.Forall₂ _ _ b₂.symbols
    rw [hsymbols, List.forall₂_map_right_iff]
    exact h.symbols.imp fun _ _ hlabel => hlabel.shiftUp hfit

/-! ### The loop -/

theorem binsPrint_single {heap : Heap} {bin : BinPtr} (h : WellAdjusted (heap bin)) :
    binsPrint heap [bin] = .ok () := by
  rw [binsPrint, if_pos]
  intro p hp e he
  obtain rfl := List.mem_singleton.mp hp
  exact h.lt e he

/-- **The word of a slot is moved into the bin.** -/
theorem exists_binMove (ls : ListSort) {bin temp : BinPtr} (hne : bin ≠ temp) {heap : Heap}
    (hb : WellAdjusted (heap bin)) {a : ℕ} (ha : a ≤ (heap bin).words.length)
    (hfit : (heap bin).words.length + 1 < 0x10000) :
    ∃ heap', binMove ls false [bin] bin temp a 0 1 (Function.update heap temp (tempBin [0])) =
        .ok heap' ∧ Gained (heap bin) a [0] (heap' bin) ∧
      (heap' bin).symbols = (heap bin).symbols.map (shiftUp a 1) := by
  have hfit' : (heap bin).words.length + ([0] : List Word).length < 0x10000 := hfit
  obtain ⟨heap', hmove, hgained⟩ := binMove_temp ls hne hb ha hfit'
  refine ⟨heap', hmove, hgained, ?_⟩
  have hsymbols := (binMove_repointed hmove hne.symm).2.2.1.symbols
  rw [Function.update_of_ne hne, Function.update_self, sortTables_tempBin] at hsymbols
  rw [hsymbols]
  exact List.append_nil _

/-- **The loop of `bins_write_jump`** fills one slot after the other. -/
theorem writeJumps (ls : ListSort) {bin temp : BinPtr} (hne : bin ≠ temp) (hb : KernelBin b)
    (hpos : pos ≤ b.words.length) {heap : Heap} (hjump : b.tables .jump = done ++ rest)
    (h : JumpsWritten b pos done rest (heap bin)) :
    ∃ heap', DcpuToolchain.writeJumps ls bin temp (List.range' done.length rest.length)
        (pos + (jumpFunctions done).length) heap = .ok heap' ∧
      JumpsWritten b pos (b.tables .jump) [] (heap' bin) := by
  induction rest generalizing done heap with
  | nil =>
    rw [hjump, List.append_nil]
    exact ⟨heap, rfl, h⟩
  | cons e rest ih =>
    have hentry : ((heap bin).tables .jump)[done.length]? =
        some (movedEntry pos (jumpFunctions done).length e) := by
      rw [h.jump, List.getElem?_append_right (by rw [length_slotted]), length_slotted, Nat.sub_self]
      rfl
    have hjump' : b.tables .jump = (done ++ [e]) ++ rest := by
      rw [hjump, List.append_assoc, List.singleton_append]
    rw [List.length_cons, List.range'_succ, DcpuToolchain.writeJumps, hentry]
    dsimp only
    by_cases he : e.label = []
    · -- a table position
      obtain ⟨heap', hrest, hdone⟩ := ih hjump' (h.unnamed he)
      rw [List.length_append, List.length_singleton, jumpFunctions_append, jumpFunctions_unnamed he,
        List.append_nil] at hrest
      exact ⟨heap', (if_pos he).trans hrest, hdone⟩
    · set n := (jumpFunctions done).length with hn
      have hsize := h.length
      have hfits : b.words.length + n + 1 < 0x10000 := by
        have := hb.fits
        rw [hjump', jumpFunctions_append, jumpFunctions_append, jumpFunctions_named he] at this
        simp only [List.length_append, List.length_singleton] at this
        omega
      have hwell := h.wellAdjusted hb hpos
      obtain ⟨heap₁, hmove, hgained, hsymbols⟩ := exists_binMove ls hne hwell (a := pos + n)
        (by omega) (by omega)
      have hprint := binsPrint_single (hgained.wellAdjusted hwell (by omega)
        (by rw [List.length_singleton]; omega))
      have hentry₁ : ((heap₁ bin).tables .jump)[done.length]? =
          some (movedEntry pos (n + 1) e) := by
        have he' := hb.jump_le e (hjump ▸ List.mem_append_right _ List.mem_cons_self)
        rw [hgained.tables _ (by decide) (by decide), List.getElem?_map, hentry, Option.map_some,
          List.length_singleton, shiftUp_movedEntry he' hfits]
      obtain ⟨w, hw⟩ : ∃ w, (heap₁ bin).words[pos + n]? = some w :=
        ⟨_, List.getElem?_eq_getElem (by rw [hgained.length_words (by omega)]; simp; omega)⟩
      have hstep := h.step hjump hb hpos he hgained hsymbols
      set heap₂ := Function.update heap₁ bin
        ((heap₁ bin).fillSlot done.length (movedEntry pos (n + 1) e) (pos + n)) with hheap₂
      have hbin₂ : heap₂ bin =
          (heap₁ bin).fillSlot done.length (movedEntry pos (n + 1) e) (pos + n) :=
        Function.update_self ..
      rw [← hbin₂] at hstep
      have hprint₂ := binsPrint_single (hstep.wellAdjusted hb hpos)
      obtain ⟨heap', hrest, hdone⟩ := ih hjump' hstep
      rw [List.length_append, List.length_singleton, jumpFunctions_append, jumpFunctions_named he,
        List.length_append, List.length_singleton, ← Nat.add_assoc] at hrest
      refine ⟨heap', (if_neg he).trans ?_, hdone⟩
      rw [hmove]
      change (binsPrint heap₁ [bin] >>= _) = _
      rw [hprint]
      simp only [bind, Except.bind, hentry₁, hw]
      rw [← hheap₂, hprint₂]
      dsimp only
      rw [u16_of_lt (by omega)]
      exact hrest

end JumpsWritten

/-- The table position is an entry of the jump list. -/
theorem KernelBin.jumpTable_le {b : LdBin} (hb : KernelBin b) {pos : ℕ}
    (hpos : b.jumpTable = some pos) : pos ≤ b.words.length := by
  obtain ⟨e, he, rfl⟩ := Option.map_eq_some_iff.mp hpos
  exact hb.jump_le e (List.mem_of_find?_eq_some he)

/-- **The jump table is written**: from any flattened bin of a kernel that says where its table
is, `bins_write_jump` makes one in which each named function has its slot, in the order of the
jump list, with the address that the function has in the end; everything else is moved with the
words, and the slots are adjusted, each once. -/
theorem binsWriteJump_ok (ls : ListSort) {s : LdBins} {p : BinPtr} (hbins : s.bins = [p])
    (hnext : p ≠ s.next) (hb : KernelBin s.flat) {pos : ℕ} (hpos : s.flat.jumpTable = some pos) :
    ∃ s', binsWriteJump ls s = .ok s' ∧ s'.bins = [p] ∧
      JumpsWritten s.flat pos (s.flat.tables .jump) [] s'.flat ∧ WellAdjusted s'.flat := by
  have hle := hb.jumpTable_le hpos
  rw [LdBins.flat_eq hbins] at hb hpos hle ⊢
  obtain ⟨heap, hloop, hdone⟩ := JumpsWritten.writeJumps ls hnext hb hle (List.nil_append _).symm
    (JumpsWritten.start (s.heap p) pos)
  have hprint := JumpsWritten.binsPrint_single hb.toWellAdjusted
  refine ⟨⟨heap, [p], s.next⟩, ?_, rfl, hdone, hdone.wellAdjusted hb hle⟩
  rw [binsWriteJump, hbins]
  dsimp only
  rw [hpos, hprint]
  change (DcpuToolchain.writeJumps ls p s.next (List.range _) pos s.heap >>= _) = _
  rw [List.range_eq_range']
  change (DcpuToolchain.writeJumps ls p s.next (List.range' 0 _) pos s.heap) = _ at hloop
  rw [hloop]
  rfl

/-- A kernel with a function before its jump table, one at it and one behind it, and a word that
refers to the last. -/
def kernelBin : LdBin where
  name := outputName
  words := [3, 0x45, 0x46, 0x47]
  tables
    | .jump => [⟨['f'], none, 0⟩, ⟨[], none, 1⟩, ⟨['g'], none, 1⟩, ⟨['h'], none, 3⟩]
    | .adjustment => [⟨[], some outputName, 0⟩]
    | _ => []
  symbols := []

/-- The linker when this is its only bin. -/
def kernelBins : LdBins := ⟨fun _ => kernelBin, [0], 1⟩

theorem kernelBins_kernelBin : KernelBin kernelBins.flat where
  nodup := by decide
  lt := by decide
  named := by
    intro e he
    rw [List.mem_singleton.mp he]
    exact ⟨outputName, rfl, by decide⟩
  name_ne := by decide
  jump_le := by decide
  fits := by decide

theorem binsWriteJump_kernelBin :
    ∃ s', binsWriteJump .insertion kernelBins = .ok s' ∧ s'.bins = [0] ∧
      JumpsWritten kernelBins.flat 1 (kernelBins.flat.tables .jump) [] s'.flat ∧
      WellAdjusted s'.flat :=
  binsWriteJump_ok .insertion rfl (by decide) kernelBins_kernelBin rfl

/-- A kernel whose first word is listed twice, as in a library that was linked with its optional
imports and linked again. -/
def doubledFile : LdBin where
  name := ['k']
  words := [1, 0x45]
  tables
    | .jump => [⟨[], none, 1⟩, ⟨['f'], none, 1⟩]
    | .adjustment => [⟨[], none, 0⟩, ⟨[], none, 0⟩]
    | _ => []
  symbols := []

/-- The function is at 2 when its slot is filled, but the first word has become 3. -/
theorem binsWriteJump_doubledFile :
    ∃ s s', linkFlat .insertion [doubledFile] = .ok s ∧ binsWriteJump .insertion s = .ok s' ∧
      s.flat.jumpTable = some 1 ∧ s.flat.words = [1, 0x45] ∧ s.flat.ownAt 0 ∧
      s'.flat.words = [3, 2, 0x45] :=
  ⟨_, _, rfl, rfl, by decide, by decide, ⟨⟨[], some outputName, 0⟩, by decide, rfl, by decide⟩,
    by decide⟩

/-- Not every word follows what it refers to. -/
theorem not_forall_binsWriteJump : ¬ ∀ (ls : ListSort) (files : List LdBin) (s : LdBins) (pos : ℕ),
    linkFlat ls files = .ok s → s.flat.jumpTable = some pos →
      (∀ e ∈ s.flat.tables .jump, e.address ≤ s.flat.words.length) →
        s.flat.words.length + (jumpFunctions (s.flat.tables .jump)).length < 0x10000 →
          ∃ s', binsWriteJump ls s = .ok s' ∧
            JumpsWritten s.flat pos (s.flat.tables .jump) [] s'.flat := by
  intro h
  obtain ⟨s, s', hlink, hwrite, hpos, hwords, hown, hwords'⟩ := binsWriteJump_doubledFile
  obtain rfl : _ = s := Except.ok.inj hlink
  obtain ⟨s₁, hwrite₁, hwritten⟩ :=
    h .insertion [doubledFile] _ 1 hlink hpos (by decide) (by decide)
  obtain rfl : s₁ = s' := Except.ok.inj (hwrite₁.symm.trans hwrite)
  have hword := hwritten.adjusted 0 1 (by rw [hwords]; rfl) hown (by rw [hwords]; decide)
  rw [hwords'] at hword
  exact absurd hword (by decide)

end DcpuToolchain
