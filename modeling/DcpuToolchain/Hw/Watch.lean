import DcpuToolchain.Hw.Devices

/-!
# The picture and the memory

The screen keeps two flags by which it knows whether what it has drawn is still what is in the
memory. The memory is changed by stores, of which the screen is told, and by others, of which it
is not (`DcpuToolchain.MemAct`).

A picture is up to date if every word that has changed since it was drawn is flagged
(`DcpuToolchain.Watch.Fresh`). One act keeps this exactly if it is not one of a few kinds that
the screen misses (`DcpuToolchain.Watch.fresh_apply_iff`), and so does a run of them
(`DcpuToolchain.Watch.forall_fresh_iff`).
-/

namespace DcpuToolchain

/-! ### What is mapped -/

namespace Lem1802

/-- An address in an area that is mapped; areas wrap around at the end of the memory. -/
def InArea (location : Word) (size : ℕ) (p : Word) : Prop :=
  location ≠ 0 ∧ (p - location).toNat < size

instance (location : Word) (size : ℕ) (p : Word) : Decidable (InArea location size p) :=
  instDecidableAnd

/-- An address in the part of an area that has not wrapped around. -/
def Hits (location : Word) (size : ℕ) (p : Word) : Prop :=
  InArea location size p ∧ location ≤ p

instance (location : Word) (size : ℕ) (p : Word) : Decidable (Hits location size p) :=
  instDecidableAnd

variable (hw : Lem1802) (p : Word)

/-- An address in the screen, the font or the palette. -/
def Maps : Prop :=
  InArea hw.screenLocation 0x180 p ∨ InArea hw.fontLocation 0x100 p ∨
    InArea hw.paletteLocation 0x10 p

/-- The address of the color of the border. -/
def IsBorder : Prop := hw.paletteLocation ≠ 0 ∧ p = hw.paletteLocation + hw.borderColor

/-- An address in an area, before it has wrapped around. -/
def HitsSome : Prop :=
  Hits hw.screenLocation 0x180 p ∨ Hits hw.fontLocation 0x100 p ∨ Hits hw.paletteLocation 0x10 p

/-- An address in the palette, before it has wrapped around, and in no other area. -/
def HitsPalette : Prop :=
  ¬Hits hw.screenLocation 0x180 p ∧ ¬Hits hw.fontLocation 0x100 p ∧
    Hits hw.paletteLocation 0x10 p

variable {hw p}

theorem hits_iff (location : Word) (size : ℕ) :
    Hits location size p ↔ location ≠ 0 ∧ location ≤ p ∧ p.toNat < location.toNat + size := by
  unfold Hits InArea
  rw [and_assoc]
  refine and_congr_right fun _ => ?_
  rw [and_comm]
  refine and_congr_right fun hle => ?_
  have hle' : location.toNat ≤ p.toNat := hle
  rw [BitVec.toNat_sub_of_le hle]
  omega

/-- The write hook changes the flags only. -/
theorem write_locations :
    (hw.write p).screenLocation = hw.screenLocation ∧
      (hw.write p).fontLocation = hw.fontLocation ∧
      (hw.write p).paletteLocation = hw.paletteLocation ∧
      (hw.write p).borderColor = hw.borderColor := by
  unfold write
  split_ifs <;> exact ⟨rfl, rfl, rfl, rfl⟩

/-- The first area that the write hook finds an address in decides which flags it sets. -/
theorem write_flags :
    ((hw.write p).screenWasUpdated = true ↔ hw.screenWasUpdated = true ∨ hw.HitsSome p) ∧
      ((hw.write p).borderWasUpdated = true ↔ hw.borderWasUpdated = true ∨ hw.HitsPalette p) := by
  have hscreen : (hw.screenLocation ≠ 0 ∧ hw.screenLocation ≤ p ∧
      p.toNat ≤ hw.screenLocation.toNat + 0x17F) ↔ Hits hw.screenLocation 0x180 p := by
    rw [hits_iff]
    refine and_congr_right fun _ => and_congr_right fun _ => ?_
    omega
  have hfont := hits_iff (p := p) hw.fontLocation 0x100
  have hpalette := hits_iff (p := p) hw.paletteLocation 0x10
  unfold write HitsSome HitsPalette
  rw [← hscreen, hfont, hpalette]
  split_ifs with h1 h2 h3
  · exact ⟨iff_of_true rfl (.inr (.inl h1)), ⟨.inl, fun h => h.resolve_right fun h => h.1 h1⟩⟩
  · exact ⟨iff_of_true rfl (.inr (.inr (.inl h2))),
      ⟨.inl, fun h => h.resolve_right fun h => h.2.1 h2⟩⟩
  · exact ⟨iff_of_true rfl (.inr (.inr (.inr h3))), iff_of_true rfl (.inr ⟨h1, h2, h3⟩)⟩
  · refine ⟨⟨.inl, fun h => h.resolve_right ?_⟩, ⟨.inl, fun h => h.resolve_right ?_⟩⟩
    · rintro (h | h | h)
      · exact h1 h
      · exact h2 h
      · exact h3 h
    · exact fun h => h3 h.2.2

end Lem1802

/-! ### Acts -/

/-- What happens to the memory or to the screen. -/
inductive MemAct
  /-- A store, with the write hook. -/
  | store (p v : Word)
  /-- A change without the hook. -/
  | write (p v : Word)
  /-- A hardware interrupt of the screen. -/
  | hwi (r : Registers)
  /-- The screen is drawn as far as it needs to be. -/
  | tick
  /-- The window is closed. -/
  | close

/-- The memory and the screen, and as history the memory when the parts of the picture were last
drawn. -/
structure Watch where
  ram : Word → Word
  lem : Lem1802
  screenDrawn : Word → Word
  borderDrawn : Word → Word

namespace Watch

/-- What an act does. -/
def apply (w : Watch) : MemAct → Watch
  | .store p v => { w with ram := Function.update w.ram p v, lem := w.lem.write p }
  | .write p v => { w with ram := Function.update w.ram p v }
  | .hwi r => { w with lem := (w.lem.interrupt r).1 }
  | .tick =>
    if w.lem.windowClosed then w
    else
      { w with
        lem := (w.lem.blink.updateTexture w.ram 0).1
        screenDrawn := if w.lem.blink.screenWasUpdated then w.ram else w.screenDrawn
        borderDrawn := if w.lem.blink.borderWasUpdated then w.ram else w.borderDrawn }
  | .close => { w with lem := { w.lem with windowClosed := true } }

/-- What acts do, one after the other. -/
def run (w : Watch) (acts : List MemAct) : Watch := acts.foldl apply w

/-- All states of a run. -/
def reached (w : Watch) : List MemAct → List Watch
  | [] => [w]
  | a :: acts => w :: reached (w.apply a) acts

/-- **The picture is up to date or flagged**. -/
structure Fresh (w : Watch) : Prop where
  screen : ∀ p, w.lem.Maps p → w.ram p ≠ w.screenDrawn p → w.lem.screenWasUpdated = true
  border : ∀ p, w.lem.IsBorder p → w.ram p ≠ w.borderDrawn p → w.lem.borderWasUpdated = true

/-- **What the screen misses**, unless it has a flag set already: changes of mapped words without
the hook; stores to a part of an area that has wrapped around; and stores to the color of the
border where another area has been found before the palette. -/
def Keeps (w : Watch) : MemAct → Prop
  | .store p v => v ≠ w.ram p →
      (w.lem.Maps p → w.lem.screenWasUpdated = true ∨ w.lem.HitsSome p) ∧
      (w.lem.IsBorder p → w.lem.borderWasUpdated = true ∨ w.lem.HitsPalette p)
  | .write p v => v ≠ w.ram p →
      (w.lem.Maps p → w.lem.screenWasUpdated = true) ∧
      (w.lem.IsBorder p → w.lem.borderWasUpdated = true)
  | .hwi _ | .tick | .close => True

/-- All acts of a run, each from the state before it. -/
def KeepsAll (w : Watch) : List MemAct → Prop
  | [] => True
  | a :: acts => w.Keeps a ∧ KeepsAll (w.apply a) acts

variable {w : Watch}

/-- A change of a word, with a screen whose areas are the same: what its flags have to be. -/
theorem fresh_update_iff (h : w.Fresh) {lem : Lem1802} (p v : Word)
    (hmaps : ∀ q, lem.Maps q ↔ w.lem.Maps q) (hborders : ∀ q, lem.IsBorder q ↔ w.lem.IsBorder q)
    (hscreen : w.lem.screenWasUpdated = true → lem.screenWasUpdated = true)
    (hborder : w.lem.borderWasUpdated = true → lem.borderWasUpdated = true) :
    Fresh { w with ram := Function.update w.ram p v, lem := lem } ↔
      (v ≠ w.ram p → (w.lem.Maps p → lem.screenWasUpdated = true) ∧
        (w.lem.IsBorder p → lem.borderWasUpdated = true)) := by
  constructor
  · rintro ⟨hs, hb⟩ hv
    constructor
    · intro hp
      -- where the flag was clear, the word was as drawn
      by_cases hflag : w.lem.screenWasUpdated = true
      · exact hscreen hflag
      · have hdrawn : w.ram p = w.screenDrawn p := by
          by_contra hne
          exact hflag (h.screen p hp hne)
        refine hs p ((hmaps p).mpr hp) ?_
        dsimp only
        rwa [Function.update_self, ← hdrawn]
    · intro hp
      by_cases hflag : w.lem.borderWasUpdated = true
      · exact hborder hflag
      · have hdrawn : w.ram p = w.borderDrawn p := by
          by_contra hne
          exact hflag (h.border p hp hne)
        refine hb p ((hborders p).mpr hp) ?_
        dsimp only
        rwa [Function.update_self, ← hdrawn]
  · intro hkeeps
    by_cases hv : v = w.ram p
    · subst hv
      rw [Function.update_eq_self]
      exact ⟨fun q hq hne => hscreen (h.screen q ((hmaps q).mp hq) hne),
        fun q hq hne => hborder (h.border q ((hborders q).mp hq) hne)⟩
    · obtain ⟨hs, hb⟩ := hkeeps hv
      constructor
      · intro q hq hne
        by_cases hqp : q = p
        · exact hs (hqp ▸ (hmaps q).mp hq)
        · dsimp only at hne
          rw [Function.update_of_ne hqp] at hne
          exact hscreen (h.screen q ((hmaps q).mp hq) hne)
      · intro q hq hne
        by_cases hqp : q = p
        · exact hb (hqp ▸ (hborders q).mp hq)
        · dsimp only at hne
          rw [Function.update_of_ne hqp] at hne
          exact hborder (h.border q ((hborders q).mp hq) hne)

theorem fresh_store_iff (h : w.Fresh) (p v : Word) :
    (w.apply (.store p v)).Fresh ↔ w.Keeps (.store p v) := by
  obtain ⟨hscreen, hfont, hpalette, hcolor⟩ := w.lem.write_locations (p := p)
  obtain ⟨hflag, hborder⟩ := w.lem.write_flags (p := p)
  have hmaps : ∀ q, (w.lem.write p).Maps q ↔ w.lem.Maps q := by
    intro q
    unfold Lem1802.Maps
    rw [hscreen, hfont, hpalette]
  have hborders : ∀ q, (w.lem.write p).IsBorder q ↔ w.lem.IsBorder q := by
    intro q
    unfold Lem1802.IsBorder
    rw [hpalette, hcolor]
  have hupdate := fresh_update_iff h p v hmaps hborders (fun hset => hflag.mpr (.inl hset))
    fun hset => hborder.mpr (.inl hset)
  rw [hflag, hborder] at hupdate
  exact hupdate

theorem fresh_write_iff (h : w.Fresh) (p v : Word) :
    (w.apply (.write p v)).Fresh ↔ w.Keeps (.write p v) :=
  fresh_update_iff h p v (fun _ => Iff.rfl) (fun _ => Iff.rfl) id id

/-- Mapping a font changes nothing about the border but its flag. -/
theorem setFont_border (lem : Lem1802) (pos : Word) :
    (∀ q, (lem.setFont pos).IsBorder q ↔ lem.IsBorder q) ∧
      (lem.borderWasUpdated = true → (lem.setFont pos).borderWasUpdated = true) := by
  unfold Lem1802.setFont
  dsimp only
  split
  · exact ⟨fun _ => Iff.rfl, id⟩
  · refine List.foldlRecOn (motive := fun lem' : Lem1802 =>
      (∀ q, lem'.IsBorder q ↔ lem.IsBorder q) ∧
        (lem.borderWasUpdated = true → lem'.borderWasUpdated = true)) _ _
      ⟨fun _ => Iff.rfl, id⟩ ?_
    rintro lem' ⟨hborders, hflag⟩ i _
    obtain ⟨-, -, hpalette, hcolor⟩ := lem'.write_locations (p := pos + BitVec.ofNat 16 i)
    refine ⟨fun q => ?_, fun hset => ?_⟩
    · rw [← hborders q]
      unfold Lem1802.IsBorder
      rw [hpalette, hcolor]
    · exact (lem'.write_flags (p := pos + BitVec.ofNat 16 i)).2.mpr (.inl (hflag hset))

/-- What is mapped anew is flagged. -/
theorem fresh_hwi (h : w.Fresh) (r : Registers) : (w.apply (.hwi r)).Fresh := by
  unfold apply Lem1802.interrupt
  dsimp only
  split_ifs
  · exact ⟨fun _ _ _ => rfl, h.border⟩
  · obtain ⟨hborders, hflag⟩ := setFont_border w.lem (r 1)
    exact ⟨fun _ _ _ => rfl, fun p hp hne => hflag (h.border p ((hborders p).mp hp) hne)⟩
  · exact ⟨fun _ _ _ => rfl, fun _ _ _ => rfl⟩
  · exact ⟨h.screen, fun _ _ _ => rfl⟩
  · exact h
  · exact h
  · exact h

/-- What is drawn is up to date. -/
theorem fresh_tick (h : w.Fresh) : (w.apply .tick).Fresh := by
  unfold apply
  dsimp only
  split
  · exact h
  · -- blinking may set a flag, and moves nothing
    obtain ⟨hmaps, hborders, hscreen, hborder⟩ :
        (∀ p, w.lem.blink.Maps p ↔ w.lem.Maps p) ∧
        (∀ p, w.lem.blink.IsBorder p ↔ w.lem.IsBorder p) ∧
        (w.lem.screenWasUpdated = true → w.lem.blink.screenWasUpdated = true) ∧
        w.lem.blink.borderWasUpdated = w.lem.borderWasUpdated := by
      unfold Lem1802.blink
      split
      · exact ⟨fun _ => Iff.rfl, fun _ => Iff.rfl, id, rfl⟩
      · exact ⟨fun _ => Iff.rfl, fun _ => Iff.rfl, fun _ => rfl, rfl⟩
    constructor
    · intro p hp hne
      by_cases hset : w.lem.blink.screenWasUpdated = true
      · dsimp only at hne
        rw [if_pos hset] at hne
        exact absurd rfl hne
      · dsimp only at hne
        rw [if_neg hset] at hne
        exact absurd (hscreen (h.screen p ((hmaps p).mp hp) hne)) hset
    · intro p hp hne
      by_cases hset : w.lem.blink.borderWasUpdated = true
      · dsimp only at hne
        rw [if_pos hset] at hne
        exact absurd rfl hne
      · dsimp only at hne
        rw [if_neg hset] at hne
        exact absurd (hborder ▸ h.border p ((hborders p).mp hp) hne) hset

/-- **One act**: the picture stays up to date or flagged unless the screen misses the act. -/
theorem fresh_apply_iff (h : w.Fresh) (a : MemAct) : (w.apply a).Fresh ↔ w.Keeps a := by
  cases a with
  | store p v => exact fresh_store_iff h p v
  | write p v => exact fresh_write_iff h p v
  | hwi r => exact iff_of_true (fresh_hwi h r) trivial
  | tick => exact iff_of_true (fresh_tick h) trivial
  | close => exact iff_of_true ⟨h.screen, h.border⟩ trivial

/-- **A run of acts**. -/
theorem forall_fresh_iff (h : w.Fresh) (acts : List MemAct) :
    (∀ s ∈ w.reached acts, s.Fresh) ↔ w.KeepsAll acts := by
  induction acts generalizing w with
  | nil =>
    rw [reached, List.forall_mem_singleton]
    exact iff_of_true h trivial
  | cons a acts ih =>
    rw [reached, List.forall_mem_cons, and_iff_right h, KeepsAll]
    constructor
    · intro hall
      have ha : (w.apply a).Fresh := by
        refine hall _ ?_
        cases acts <;> exact List.mem_cons_self
      exact ⟨(fresh_apply_iff h a).mp ha, (ih ha).mp hall⟩
    · rintro ⟨ha, hacts⟩
      exact (ih ((fresh_apply_iff h a).mpr ha)).mpr hacts

/-- A screen that has all its flags set is to be drawn. -/
theorem fresh_of_flags (hscreen : w.lem.screenWasUpdated = true)
    (hborder : w.lem.borderWasUpdated = true) : w.Fresh :=
  ⟨fun _ _ _ => hscreen, fun _ _ _ => hborder⟩

@[simp] theorem run_nil : w.run [] = w := rfl

theorem run_append (acts acts' : List MemAct) : w.run (acts ++ acts') = (w.run acts).run acts' :=
  List.foldl_append

theorem run_mem_reached (acts : List MemAct) : w.run acts ∈ w.reached acts := by
  induction acts generalizing w with
  | nil => exact List.mem_singleton_self _
  | cons a acts ih => exact List.mem_cons_of_mem _ ih

end Watch

end DcpuToolchain
