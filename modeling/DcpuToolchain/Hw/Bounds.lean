import DcpuToolchain.Hw.Devices
import Mathlib.Data.Fin.VecNotation

/-!
# Accesses of the devices

A guest program chooses where the devices transfer to and fetch from. The devices add their
offsets to the address in `int`, so nothing wraps: near the end of the memory they leave it.
The screen does not even come to an end there, and the keyboard takes one index more than it
has keys. `DcpuToolchain.devices_inBounds_iff` says when all accesses of a run are to elements that
there are.
-/

namespace DcpuToolchain

/-- All accesses of a device that is called are to elements that there are. -/
def Devices.InBounds (d : Devices) (e : HwEvent) : Prop :=
  ∀ fuel, ∀ a ∈ (d.step e fuel).2, a.InBounds

/-! ### The condition -/

/-- Whether the drive transfers a sector at the next tick. -/
def M35fd.Transfers (hw : M35fd) : Prop :=
  (hw.reading = true ∨ hw.writing = true) ∧ hw.state ≠ M35fd.noMedia ∧
    (hw.disk = true ∨ hw.state ≠ M35fd.readyWp ∧ hw.state ≠ M35fd.ready) ∧ hw.sector ≤ 1440

/-- A color of the palette is in the memory. -/
def Lem1802.PaletteFits (hw : Lem1802) (idx : ℕ) : Prop :=
  hw.paletteLocation ≠ 0 → hw.paletteLocation.toNat + idx < 0x10000

/-- A glyph of the font is in the memory. -/
def Lem1802.GlyphFits (hw : Lem1802) (chr : ℕ) : Prop :=
  hw.fontLocation ≠ 0 → hw.fontLocation.toNat + 2 * chr + 1 < 0x10000

/-- The colors and the glyph of a value on the screen are in the memory. -/
def Lem1802.ValueFits (hw : Lem1802) (val : Word) : Prop :=
  hw.PaletteFits ((val &&& 0xF000) >>> 12).toNat ∧ hw.PaletteFits ((val &&& 0x0F00) >>> 8).toNat ∧
    hw.GlyphFits (val &&& 0x007F).toNat

/-- The screen does not reach the last address, and the values that it shows and the border have
their colors and glyphs in the memory. -/
def Lem1802.Fits (hw : Lem1802) (ram : Word → Word) : Prop :=
  hw.windowClosed = false →
    ((hw.screenWasUpdated = true ∨ 60 ≤ hw.blinkTick) → hw.screenLocation ≠ 0 →
      hw.screenLocation.toNat + 0x17F < 0xFFFF ∧
        ∀ i < 0x180, hw.ValueFits (ram (hw.screenLocation + BitVec.ofNat 16 i))) ∧
    (hw.borderWasUpdated = true → hw.PaletteFits hw.borderColor.toNat)

/-- **What a guest has to avoid**: transfers, dumps and mapped memory that reach beyond the last
address, and the key `0x92`. -/
def Devices.Fits (d : Devices) : HwEvent → Prop
  | .hwiLem1802 r => (r 0 = 4 → (r 1).toNat + 0x100 ≤ 0x10000) ∧
      (r 0 = 5 → (r 1).toNat + 0x10 ≤ 0x10000)
  | .hwiKeyboard r => r 0 = 2 → r 1 ≠ 0x92
  | .tickM35fd => d.m35fd.Transfers → d.m35fd.position.toNat + 0x200 ≤ 0x10000
  | .tickLem1802 ram => d.lem1802.Fits ram
  | .tickSped3 => d.hosted = true → d.sped3.windowClosed = false →
      d.sped3.mem.toNat + 2 * min d.sped3.num.toNat 128 ≤ 0x10000
  | _ => True

/-- The devices before each event of a run, with the event. -/
def Devices.steps : Devices → List HwEvent → List (Devices × HwEvent)
  | _, [] => []
  | d, e :: es => (d, e) :: steps (d.step e 0).1 es

/-! ### What devices keep -/

/-- The indices that the devices keep are in their arrays. -/
structure Devices.Sound (d : Devices) : Prop where
  read : d.keyboard.bufferIdxR < kbBufferCount
  written : d.keyboard.bufferIdxW < kbBufferCount
  border : d.lem1802.borderColor.toNat < 16

theorem Keyboard.nextIdx_lt (i : ℕ) : nextIdx i < kbBufferCount := by
  unfold nextIdx kbBufferCount
  split <;> omega

/-- The indices into the buffer of the keyboard. -/
def Keyboard.Sound (hw : Keyboard) : Prop :=
  hw.bufferIdxR < kbBufferCount ∧ hw.bufferIdxW < kbBufferCount

theorem Keyboard.Sound.appendToBuffer {hw : Keyboard} (h : hw.Sound) (index : ℕ) :
    (hw.appendToBuffer index).1.Sound := by
  refine ⟨?_, nextIdx_lt _⟩
  rw [Keyboard.appendToBuffer]
  dsimp only
  split
  · exact nextIdx_lt _
  · exact h.1

theorem Keyboard.Sound.switchKey {hw : Keyboard} (h : hw.Sound) (key : ℕ) (state : Bool) :
    (hw.switchKey key state).1.Sound := by
  rw [Keyboard.switchKey]
  split
  · exact h
  · split_ifs
    · exact h
    · exact h
    · exact h
    · exact h
    · exact h
    · refine List.foldlRecOn _ _ h ?_
      intro hw h i _
      exact h

theorem Keyboard.Sound.handleKey {hw : Keyboard} (h : hw.Sound) (key : ℕ) (state : Bool) :
    (hw.handleKey key state).1.Sound := by
  have hswitch := h.switchKey key state
  rw [Keyboard.handleKey]
  dsimp only
  split
  · exact hswitch.appendToBuffer (hw.switchKey key state).2.2
  · exact hswitch

theorem Keyboard.Sound.interrupt {hw : Keyboard} (h : hw.Sound) (r : Registers) :
    (hw.interrupt r).1.Sound := by
  rw [Keyboard.interrupt]
  split_ifs
  · exact h
  · exact h
  · exact ⟨nextIdx_lt _, h.2⟩
  · exact h
  · exact h
  · exact h
  · exact h
  · exact h

theorem Lem1802.write_borderColor (hw : Lem1802) (pos : Word) :
    (hw.write pos).borderColor = hw.borderColor := by
  rw [write]
  split_ifs <;> rfl

theorem Lem1802.setFont_borderColor (hw : Lem1802) (pos : Word) :
    (hw.setFont pos).borderColor = hw.borderColor := by
  unfold setFont
  dsimp only
  split
  · rfl
  · refine List.foldlRecOn
      (motive := fun hw' : Lem1802 => hw'.borderColor = hw.borderColor) _ _ rfl ?_
    intro hw' h i _
    rw [write_borderColor, h]

theorem Lem1802.interrupt_borderColor {hw : Lem1802} (h : hw.borderColor.toNat < 16)
    (r : Registers) : (hw.interrupt r).1.borderColor.toNat < 16 := by
  rw [interrupt]
  split_ifs
  · exact h
  · change (hw.setFont (r 1)).borderColor.toNat < 16
    rwa [setFont_borderColor]
  · exact h
  · change (r 1 &&& 0xF).toNat < 16
    rw [BitVec.toNat_and]
    exact Nat.lt_succ_of_le Nat.and_le_right
  · exact h
  · exact h
  · exact h

theorem Lem1802.cycle_borderColor (hw : Lem1802) (ram : Word → Word) (fuel : ℕ) :
    (hw.cycle ram fuel).1.borderColor = hw.borderColor := by
  rw [cycle]
  split
  · rfl
  · unfold updateTexture blink
    dsimp only
    split <;> rfl

theorem Devices.Sound.step {d : Devices} (h : d.Sound) (e : HwEvent) (fuel : ℕ) :
    (d.step e fuel).1.Sound := by
  obtain ⟨hread, hwritten, hborder⟩ := h
  have hkeyboard : d.keyboard.Sound := ⟨hread, hwritten⟩
  cases e with
  | hwiM35fd | hwiSped3 | tickM35fd | tickSped3 | postCycle | closeLem1802 | closeSped3 =>
    exact ⟨hread, hwritten, hborder⟩
  | hwiLem1802 r => exact ⟨hread, hwritten, Lem1802.interrupt_borderColor hborder r⟩
  | hwiKeyboard r =>
    obtain ⟨h1, h2⟩ := hkeyboard.interrupt r
    exact ⟨h1, h2, hborder⟩
  | tickLem1802 ram =>
    refine ⟨hread, hwritten, ?_⟩
    change (d.lem1802.cycle ram fuel).1.borderColor.toNat < 16
    rwa [Lem1802.cycle_borderColor]
  | write pos =>
    refine ⟨hread, hwritten, ?_⟩
    change (d.lem1802.write pos).borderColor.toNat < 16
    rwa [Lem1802.write_borderColor]
  | char c =>
    have hchar : (d.keyboard.handleChar c).1.Sound := by
      rw [Keyboard.handleChar]
      split
      · exact hkeyboard.appendToBuffer _
      · exact hkeyboard
    exact ⟨hchar.1, hchar.2, hborder⟩
  | key key state =>
    obtain ⟨h1, h2⟩ := hkeyboard.handleKey key state
    exact ⟨h1, h2, hborder⟩

theorem Devices.init_sound (disk hosted : Bool) : (Devices.init disk hosted).Sound := by
  refine ⟨?_, ?_, ?_⟩ <;> exact Nat.zero_lt_succ _

/-! ### The disk drive -/

theorem M35fd.transfer_inBounds_iff (hw : M35fd) :
    (∀ a ∈ hw.transfer, a.InBounds) ↔ hw.position.toNat + 0x200 ≤ 0x10000 := by
  rw [transfer]
  rw [List.forall_mem_map]
  constructor
  · intro h
    have hlast : hw.position.toNat + 511 < 0x10000 := h 511 (List.mem_range.mpr (by decide))
    omega
  · intro h i hi
    rw [List.mem_range] at hi
    change hw.position.toNat + i < 0x10000
    omega

theorem M35fd.checked_of_transfers {hw : M35fd} (h : hw.Transfers) : hw.checked = hw := by
  obtain ⟨-, -, hdisk, hsector⟩ := h
  have hnone : ¬(hw.disk = false ∧ (hw.state = readyWp ∨ hw.state = ready)) := by
    rintro ⟨hnone, hstate⟩
    rcases hdisk with hdisk | ⟨h1, h2⟩
    · rw [hnone] at hdisk
      cases hdisk
    · exact hstate.elim h1 h2
  have hlow : ¬ 1440 < hw.sector := BitVec.not_lt.mpr hsector
  unfold checked
  dsimp only
  rw [if_neg hnone, if_neg hlow]

theorem M35fd.checked_idle {hw : M35fd} (h : ¬ hw.Transfers) (hmedia : hw.state ≠ noMedia) :
    hw.checked.reading = false ∧ hw.checked.writing = false := by
  unfold checked
  dsimp only
  by_cases hdisk : hw.disk = false ∧ (hw.state = readyWp ∨ hw.state = ready)
  · rw [if_pos hdisk]
    split <;> exact ⟨rfl, rfl⟩
  · rw [if_neg hdisk]
    split
    · exact ⟨rfl, rfl⟩
    · rename_i hsector
      by_contra hidle
      refine h ⟨?_, hmedia, ?_, BitVec.not_lt.mp hsector⟩
      · by_contra hboth
        rw [not_or, Bool.not_eq_true, Bool.not_eq_true] at hboth
        exact hidle hboth
      · by_cases hnone : hw.disk = false
        · exact .inr ⟨fun h => hdisk ⟨hnone, .inl h⟩, fun h => hdisk ⟨hnone, .inr h⟩⟩
        · exact .inl (Bool.not_eq_false _ ▸ hnone)

/-- A tick transfers a sector or nothing. -/
theorem M35fd.cycle_inBounds_iff (hw : M35fd) :
    (∀ a ∈ hw.cycle.2, a.InBounds) ↔ (hw.Transfers → hw.position.toNat + 0x200 ≤ 0x10000) := by
  by_cases h : hw.Transfers
  · have hcycle : hw.cycle.2 = hw.transfer := by
      have hmedia : ¬(hw.state = noMedia ∧ (hw.reading = true ∨ hw.writing = true)) :=
        fun hnone => h.2.1 hnone.1
      rw [cycle]
      rw [if_neg hmedia, checked_of_transfers h]
      dsimp only
      by_cases hreading : hw.reading = true
      · simp [hreading, resetState]
      · have hwriting : hw.writing = true := h.1.resolve_left hreading
        simp [hreading, hwriting]
    rw [hcycle, transfer_inBounds_iff]
    exact ⟨fun hle _ => hle, fun hle => hle h⟩
  · have hcycle : hw.cycle.2 = [] := by
      rw [cycle]
      split
      · rfl
      · rename_i hmedia
        by_cases hstate : hw.state = noMedia
        · rw [not_and, not_or, Bool.not_eq_true, Bool.not_eq_true] at hmedia
          obtain ⟨hreading, hwriting⟩ := hmedia hstate
          have hchecked : hw.checked.reading = false ∧ hw.checked.writing = false := by
            unfold checked
            dsimp only
            split_ifs <;> first | exact ⟨rfl, rfl⟩ | exact ⟨hreading, hwriting⟩
          simp [hchecked.1, hchecked.2]
        · obtain ⟨hreading, hwriting⟩ := checked_idle h hstate
          simp [hreading, hwriting]
    rw [hcycle]
    exact iff_of_true (by simp) fun htransfers => absurd htransfers h

/-! ### The vector display -/

theorem Sped3.cycle_inBounds_iff (hw : Sped3) (hosted : Bool) :
    (∀ a ∈ hw.cycle hosted, a.InBounds) ↔
      (hosted = true → hw.windowClosed = false →
        hw.mem.toNat + 2 * min hw.num.toNat 128 ≤ 0x10000) := by
  rw [cycle]
  split
  · rename_i hnone
    refine iff_of_true (by simp) fun hhosted hopen => ?_
    rw [hhosted, hopen] at hnone
    rcases hnone with h | h <;> cases h
  · rename_i hdraws
    rw [not_or, Bool.not_eq_true, Bool.not_eq_false] at hdraws
    rw [List.forall_mem_flatMap]
    constructor
    · intro h _ _
      generalize hn : min hw.num.toNat 128 = n at h ⊢
      cases n with
      | zero => exact hw.mem.isLt.le
      | succ n =>
        have hlast : hw.mem.toNat + n * 2 + 1 < 0x10000 :=
          h n (List.mem_range.mpr (Nat.lt_succ_self n)) ⟨.ram, hw.mem.toNat + n * 2 + 1⟩ (by simp)
        omega
    · intro h i hi
      have hle := h hdraws.2 hdraws.1
      rw [List.mem_range] at hi
      simp only [List.mem_cons, List.not_mem_nil, or_false, forall_eq_or_imp, forall_eq]
      constructor
      · change hw.mem.toNat + i * 2 < 0x10000
        omega
      · change hw.mem.toNat + i * 2 + 1 < 0x10000
        omega

/-! ### The keyboard -/

theorem Keyboard.interrupt_inBounds_iff {hw : Keyboard} (h : hw.Sound) (r : Registers) :
    (∀ a ∈ (hw.interrupt r).2.2, a.InBounds) ↔ (r 0 = 2 → r 1 ≠ 0x92) := by
  have hlast : r 1 = 0x92 ↔ (r 1).toNat = 0x92 := by
    rw [← BitVec.toNat_inj]
    rfl
  rw [interrupt]
  by_cases h0 : r 0 = 0
  · rw [if_pos h0]
    refine iff_of_true ?_ fun h => absurd (h0.symm.trans h) (by decide)
    rw [List.forall_mem_map]
    exact fun i hi => List.mem_range.mp hi
  rw [if_neg h0]
  by_cases h1 : r 0 = 1
  · rw [if_pos h1]
    refine iff_of_true ?_ fun h => absurd (h1.symm.trans h) (by decide)
    split
    · simp
    · rw [List.forall_mem_singleton]
      exact h.1
  rw [if_neg h1]
  by_cases h2 : r 0 = 2
  · rw [if_pos h2]
    by_cases hkey : 0 < r 1 ∧ (r 1).toNat ≤ kbPressedCount
    · rw [if_pos hkey, List.forall_mem_singleton, ne_eq, hlast]
      change (r 1).toNat < kbPressedCount ↔ _
      unfold kbPressedCount at hkey ⊢
      constructor
      · intro hlt _
        omega
      · intro hne
        have := hne h2
        omega
    · rw [if_neg hkey]
      refine iff_of_true (by simp) fun _ h => hkey ?_
      rw [h]
      decide
  · rw [if_neg h2]
    refine iff_of_true ?_ fun h => absurd h h2
    split <;> simp

theorem Keyboard.appendToBuffer_inBounds {hw : Keyboard} (h : hw.Sound) (index : ℕ) :
    ∀ a ∈ (hw.appendToBuffer index).2, a.InBounds := by
  rw [appendToBuffer]
  rw [List.forall_mem_singleton]
  exact h.2

theorem Keyboard.handleChar_inBounds {hw : Keyboard} (h : hw.Sound) (c : ℤ) :
    ∀ a ∈ (hw.handleChar c).2, a.InBounds := by
  rw [handleChar]
  split
  · exact appendToBuffer_inBounds h _
  · simp

theorem Keyboard.switchKey_indices (hw : Keyboard) (key : ℕ) (state : Bool) :
    ∀ i ∈ (hw.switchKey key state).2.1, i < kbPressedCount := by
  rw [switchKey]
  split
  · rename_i index hlookup
    rw [List.forall_mem_singleton]
    have hmem : ∀ p ∈ specialKeys, p.2 < kbPressedCount := by decide
    obtain ⟨before, after, hkeys, -⟩ := List.lookup_eq_some_iff.mp hlookup
    have hindex : (key, index) ∈ specialKeys := by
      rw [hkeys]
      simp
    exact hmem _ hindex
  · split_ifs
    · rw [List.forall_mem_singleton]
      decide
    · rw [List.forall_mem_singleton]
      decide
    · rw [List.forall_mem_singleton]
      decide
    · rw [List.forall_mem_singleton]
      decide
    · simp
    · intro i hi
      exact of_decide_eq_true (List.mem_filter.mp hi).2

theorem Keyboard.handleKey_inBounds {hw : Keyboard} (h : hw.Sound) (key : ℕ) (state : Bool) :
    ∀ a ∈ (hw.handleKey key state).2, a.InBounds := by
  have hindices := hw.switchKey_indices key state
  have hswitch := h.switchKey key state
  rw [handleKey]
  dsimp only
  rw [List.forall_mem_append, List.forall_mem_map]
  refine ⟨hindices, ?_⟩
  split
  · exact appendToBuffer_inBounds hswitch _
  · simp

/-! ### The screen -/

namespace Lem1802

theorem dumpFont_inBounds_iff (base : ℕ) :
    (∀ a ∈ (List.range 128).flatMap fun idx =>
      [(⟨.fontDefault, 2 * idx⟩ : Access), ⟨.fontDefault, 2 * idx + 1⟩,
        ⟨.ram, base + idx * 2⟩, ⟨.ram, base + idx * 2 + 1⟩], a.InBounds) ↔
      base + 0x100 ≤ 0x10000 := by
  rw [List.forall_mem_flatMap]
  constructor
  · intro h
    have hlast : base + 127 * 2 + 1 < 0x10000 :=
      h 127 (List.mem_range.mpr (by decide)) ⟨.ram, base + 127 * 2 + 1⟩ (by simp)
    omega
  · intro h idx hidx
    rw [List.mem_range] at hidx
    simp only [List.mem_cons, List.not_mem_nil, or_false, forall_eq_or_imp, forall_eq,
      Access.InBounds, HwArray.size]
    omega

theorem dumpPalette_inBounds_iff (base : ℕ) :
    (∀ a ∈ (List.range 16).flatMap fun idx =>
      [(⟨.paletteInternal, idx⟩ : Access), ⟨.ram, base + idx⟩], a.InBounds) ↔
      base + 0x10 ≤ 0x10000 := by
  rw [List.forall_mem_flatMap]
  constructor
  · intro h
    have hlast : base + 15 < 0x10000 :=
      h 15 (List.mem_range.mpr (by decide)) ⟨.ram, base + 15⟩ (by simp)
    omega
  · intro h idx hidx
    rw [List.mem_range] at hidx
    simp only [List.mem_cons, List.not_mem_nil, or_false, forall_eq_or_imp, forall_eq,
      Access.InBounds, HwArray.size]
    omega

/-- Only the dumps access anything. -/
theorem interrupt_inBounds_iff (hw : Lem1802) (r : Registers) :
    (∀ a ∈ (hw.interrupt r).2, a.InBounds) ↔
      (r 0 = 4 → (r 1).toNat + 0x100 ≤ 0x10000) ∧ (r 0 = 5 → (r 1).toNat + 0x10 ≤ 0x10000) := by
  by_cases h4 : r 0 = 4
  · have h5 : r 0 ≠ 5 := fun h => absurd (h4.symm.trans h) (by decide)
    have haccesses := dumpFont_inBounds_iff (r 1).toNat
    simpa [interrupt, h4, h5] using haccesses
  by_cases h5 : r 0 = 5
  · have haccesses := dumpPalette_inBounds_iff (r 1).toNat
    simpa [interrupt, h4, h5] using haccesses
  · refine iff_of_true ?_ ⟨fun h => absurd h h4, fun h => absurd h h5⟩
    rw [interrupt]
    rw [if_neg h4, if_neg h5]
    split_ifs <;> simp

theorem pixel_inBounds {x y : ℕ} (hx : x < textureWidth) (hy : y < textureHeight) :
    ∀ a ∈ pixel x y, a.InBounds := by
  rw [pixel]
  rw [List.forall_mem_map]
  intro color hcolor
  rw [List.mem_range] at hcolor
  change 3 * (y * textureWidth + x) + color < 3 * textureHeight * textureWidth
  unfold textureWidth textureHeight at *
  omega

theorem paletteColor_inBounds_iff (hw : Lem1802) {idx : ℕ} (h : idx < 16) :
    (hw.paletteColor idx).InBounds ↔ hw.PaletteFits idx := by
  unfold paletteColor PaletteFits
  split
  · rename_i hnone
    exact iff_of_true h fun hsome => absurd hnone hsome
  · rename_i hsome
    exact ⟨fun hlt _ => hlt, fun hlt => hlt hsome⟩

theorem glyphWord_inBounds_iff (hw : Lem1802) {chr : ℕ} (h : chr < 128) :
    ((hw.glyphWord chr 0).InBounds ∧ (hw.glyphWord chr 1).InBounds) ↔ hw.GlyphFits chr := by
  unfold glyphWord GlyphFits
  split
  · rename_i hnone
    refine iff_of_true ⟨?_, ?_⟩ fun hsome => absurd hnone hsome
    · change 2 * chr + 0 < 128 * 2
      omega
    · change 2 * chr + 1 < 128 * 2
      omega
  · rename_i hsome
    constructor
    · intro hlt _
      exact hlt.2
    · intro hlt
      refine ⟨?_, hlt hsome⟩
      have := hlt hsome
      change hw.fontLocation.toNat + 2 * chr + 0 < 0x10000
      omega

/-- The cells of the screen are in the texture. -/
theorem putCharToScreen_inBounds_iff (hw : Lem1802) (val : Word) {screenX screenY : ℕ}
    (hx : screenX < 32) (hy : screenY < 12) :
    (∀ a ∈ hw.putCharToScreen val screenX screenY, a.InBounds) ↔ hw.ValueFits val := by
  have hfore : ((val &&& 0xF000) >>> 12).toNat < 16 := by
    rw [BitVec.toNat_ushiftRight, Nat.shiftRight_eq_div_pow]
    have := (val &&& 0xF000).isLt
    omega
  have hback : ((val &&& 0x0F00) >>> 8).toNat < 16 := by
    have hle : (val &&& 0x0F00).toNat ≤ 0x0F00 := by
      rw [BitVec.toNat_and]
      exact Nat.and_le_right
    rw [BitVec.toNat_ushiftRight, Nat.shiftRight_eq_div_pow]
    omega
  have hchr : (val &&& 0x007F).toNat < 128 := by
    rw [BitVec.toNat_and]
    exact Nat.lt_succ_of_le Nat.and_le_right
  have hpixels : ∀ a ∈ (List.range 4).flatMap (fun x => (List.range 8).flatMap fun y =>
      pixel (screenX * 4 + x + 6) (screenY * 8 + y + 6)), a.InBounds := by
    simp only [List.forall_mem_flatMap, List.mem_range]
    intro x hx' y hy'
    refine pixel_inBounds ?_ ?_
    · rw [textureWidth]
      omega
    · rw [textureHeight]
      omega
  unfold putCharToScreen ValueFits
  rw [List.forall_mem_append, ← paletteColor_inBounds_iff hw hfore,
    ← paletteColor_inBounds_iff hw hback, ← glyphWord_inBounds_iff hw hchr]
  simp only [List.mem_cons, List.not_mem_nil, or_false, forall_eq_or_imp, forall_eq]
  exact and_iff_left hpixels

/-- Below the screen there is no texture. -/
theorem putCharToScreen_below (hw : Lem1802) (val : Word) {screenX screenY : ℕ}
    (hy : 14 ≤ screenY) : ¬ ∀ a ∈ hw.putCharToScreen val screenX screenY, a.InBounds := by
  intro h
  rw [putCharToScreen] at h
  rw [List.forall_mem_append] at h
  have hpixels := h.2
  simp only [List.forall_mem_flatMap, List.mem_range] at hpixels
  have hfirst : 3 * ((screenY * 8 + 0 + 6) * textureWidth + (screenX * 4 + 0 + 6)) + 0 <
      3 * textureHeight * textureWidth :=
    hpixels 0 (by decide) 0 (by decide) _
      (List.mem_map.mpr ⟨0, List.mem_range.mpr (by decide), rfl⟩)
  unfold textureWidth textureHeight at hfirst
  omega

theorem drawBorder_inBounds_iff {hw : Lem1802} (h : hw.borderColor.toNat < 16) :
    (∀ a ∈ hw.drawBorder, a.InBounds) ↔ hw.PaletteFits hw.borderColor.toNat := by
  rw [drawBorder]
  simp only [List.forall_mem_append, List.forall_mem_flatMap, List.forall_mem_singleton,
    List.mem_range, List.mem_range'_1, paletteColor_inBounds_iff hw h, and_assoc]
  refine and_iff_left ⟨?_, ?_, ?_⟩
  · intro y hy x hx
    refine pixel_inBounds hx ?_
    rw [textureHeight]
    omega
  · intro y hy
    constructor
    · intro x hx
      refine pixel_inBounds ?_ ?_
      · rw [textureWidth]
        omega
      · unfold textureHeight at *
        omega
    · intro x hx
      refine pixel_inBounds ?_ ?_
      · unfold textureWidth at *
        omega
      · unfold textureHeight at *
        omega
  · intro y hy x hx
    refine pixel_inBounds hx ?_
    unfold textureHeight at *
    omega

/-- The accesses for a cell of the screen. -/
def cell (hw : Lem1802) (ram : Word → Word) (i : ℕ) : List Access :=
  [⟨.ram, (hw.screenLocation + BitVec.ofNat 16 i).toNat⟩] ++
    hw.putCharToScreen (ram (hw.screenLocation + BitVec.ofNat 16 i)) (i % 32) (i / 32)

theorem drawCells_succ (hw : Lem1802) (ram : Word → Word) (fuel k : ℕ) :
    hw.drawCells ram (fuel + 1) (hw.screenLocation + BitVec.ofNat 16 k) k =
      if (hw.screenLocation + BitVec.ofNat 16 k).toNat ≤ hw.screenLocation.toNat + 0x17F then
        hw.cell ram k ++ hw.drawCells ram fuel (hw.screenLocation + BitVec.ofNat 16 (k + 1)) (k + 1)
      else [] := by
  rw [drawCells, BitVec.add_assoc, BitVec.ofNat_add]
  rfl

/-- A cell is drawn if its address and those before it are not after the screen. -/
theorem cell_subset_drawCells (hw : Lem1802) (ram : Word → Word) (n : ℕ) :
    ∀ k, (∀ j ≤ n, (hw.screenLocation + BitVec.ofNat 16 (k + j)).toNat ≤
        hw.screenLocation.toNat + 0x17F) →
      hw.cell ram (k + n) ⊆
        hw.drawCells ram (n + 1) (hw.screenLocation + BitVec.ofNat 16 k) k := by
  induction n with
  | zero =>
    intro k hreached
    have hfirst := hreached 0 le_rfl
    rw [Nat.add_zero] at hfirst ⊢
    rw [drawCells_succ, if_pos hfirst]
    exact List.subset_append_left _ _
  | succ n ih =>
    intro k hreached
    have hrest := ih (k + 1) fun j hj => by
      have := hreached (j + 1) (by omega)
      rwa [Nat.add_assoc, Nat.add_comm 1 j]
    have hfirst := hreached 0 (Nat.zero_le _)
    rw [Nat.add_zero] at hfirst
    have hcell : k + (n + 1) = k + 1 + n := by omega
    rw [drawCells_succ, if_pos hfirst, hcell]
    exact List.Subset.trans hrest (List.subset_append_right _ _)

/-- The loop over the screen comes to its end after the last cell. -/
theorem drawCells_inBounds {hw : Lem1802} {ram : Word → Word}
    (hend : hw.screenLocation.toNat + 0x17F < 0xFFFF)
    (h : ∀ i < 0x180, ∀ a ∈ hw.cell ram i, a.InBounds) (fuel : ℕ) :
    ∀ k ≤ 0x180, ∀ a ∈ hw.drawCells ram fuel (hw.screenLocation + BitVec.ofNat 16 k) k,
      a.InBounds := by
  induction fuel with
  | zero =>
    intro k _ a ha
    cases ha
  | succ fuel ih =>
    intro k hk
    have hpos : (hw.screenLocation + BitVec.ofNat 16 k).toNat = hw.screenLocation.toNat + k := by
      rw [BitVec.toNat_add, BitVec.toNat_ofNat]
      omega
    rw [drawCells_succ]
    split
    · have hlt : k < 0x180 := by omega
      rw [List.forall_mem_append]
      exact ⟨h k hlt, ih (k + 1) hlt⟩
    · simp

/-- **The loop over the screen**: it stays in the arrays if it comes to an end and all cells do. -/
theorem drawCells_inBounds_iff (hw : Lem1802) (ram : Word → Word) :
    (∀ fuel, ∀ a ∈ hw.drawCells ram fuel hw.screenLocation 0, a.InBounds) ↔
      hw.screenLocation.toNat + 0x17F < 0xFFFF ∧
        ∀ i < 0x180, hw.ValueFits (ram (hw.screenLocation + BitVec.ofNat 16 i)) := by
  have hstart : hw.screenLocation + BitVec.ofNat 16 0 = hw.screenLocation := BitVec.add_zero _
  have hcell : ∀ i < 0x180, (∀ a ∈ hw.cell ram i, a.InBounds) ↔
      hw.ValueFits (ram (hw.screenLocation + BitVec.ofNat 16 i)) := by
    intro i hi
    rw [cell]
    rw [List.forall_mem_append, List.forall_mem_singleton,
      putCharToScreen_inBounds_iff hw _ (Nat.mod_lt i (by decide)) (by omega)]
    exact and_iff_right (BitVec.isLt _)
  constructor
  · intro h
    have hend : hw.screenLocation.toNat + 0x17F < 0xFFFF := by
      by_contra hlast
      have hsubset := hw.cell_subset_drawCells ram 448 0 fun j _ => by
        have := (hw.screenLocation + BitVec.ofNat 16 (0 + j)).isLt
        omega
      rw [hstart] at hsubset
      have hbelow : ¬ ∀ a ∈ hw.putCharToScreen
          (ram (hw.screenLocation + BitVec.ofNat 16 448)) (448 % 32) (448 / 32), a.InBounds :=
        hw.putCharToScreen_below _ (by decide)
      refine hbelow fun a ha => ?_
      exact h 449 a (hsubset (List.mem_append_right _ ha))
    refine ⟨hend, fun i hi => (hcell i hi).mp fun a ha => ?_⟩
    have hsubset := hw.cell_subset_drawCells ram i 0 fun j hj => by
      rw [BitVec.toNat_add, BitVec.toNat_ofNat]
      omega
    rw [hstart, Nat.zero_add] at hsubset
    exact h (i + 1) a (hsubset ha)
  · rintro ⟨hend, hvalues⟩ fuel
    have hcells := drawCells_inBounds hend (fun i hi => (hcell i hi).mpr (hvalues i hi)) fuel 0
      (Nat.zero_le _)
    rwa [hstart] at hcells

/-- A tick draws the screen if it has changed or blinks, and the border if that has changed. -/
theorem cycle_inBounds_iff {hw : Lem1802} (h : hw.borderColor.toNat < 16) (ram : Word → Word) :
    (∀ fuel, ∀ a ∈ (hw.cycle ram fuel).2, a.InBounds) ↔ hw.Fits ram := by
  rw [Fits]
  by_cases hclosed : hw.windowClosed = true
  · refine iff_of_true (fun fuel => ?_) fun hopen => ?_
    · rw [cycle]
      rw [if_pos hclosed]
      simp
    · rw [hclosed] at hopen
      cases hopen
  have hopen : hw.windowClosed = false := Bool.not_eq_true _ ▸ hclosed
  -- blinking changes nothing but whether the screen is drawn
  obtain ⟨hlocation, hborder, hvalue, hcolor, hupdated⟩ :
      hw.blink.screenLocation = hw.screenLocation ∧
      hw.blink.borderWasUpdated = hw.borderWasUpdated ∧
      (∀ val, hw.blink.ValueFits val ↔ hw.ValueFits val) ∧
      ((∀ a ∈ hw.blink.drawBorder, a.InBounds) ↔ hw.PaletteFits hw.borderColor.toNat) ∧
      (hw.blink.screenWasUpdated = true ↔ hw.screenWasUpdated = true ∨ 60 ≤ hw.blinkTick) := by
    have hdraw := drawBorder_inBounds_iff h
    rw [blink]
    split
    · rename_i htick
      exact ⟨rfl, rfl, fun _ => Iff.rfl, hdraw, ⟨.inl, fun h => h.resolve_right (by omega)⟩⟩
    · rename_i htick
      exact ⟨rfl, rfl, fun _ => Iff.rfl, hdraw, iff_of_true rfl (.inr (by omega))⟩
  have hcells := hw.blink.drawCells_inBounds_iff ram
  simp only [hlocation, hvalue] at hcells
  have hclear : ∀ a ∈ (List.range (3 * textureHeight * textureWidth)).map
      (Access.mk .glfwTexture), a.InBounds := by
    rw [List.forall_mem_map]
    exact fun i hi => List.mem_range.mp hi
  have hcycle : ∀ fuel, (hw.cycle ram fuel).2 = (hw.blink.updateTexture ram fuel).2 := by
    intro fuel
    rw [cycle]
    rw [if_neg hclosed]
  simp only [hcycle, updateTexture, List.forall_mem_append, hlocation, hborder]
  rw [forall_and, ← hupdated, forall_prop_of_true hopen]
  refine and_congr ?_ ?_
  · by_cases hscreen : hw.blink.screenWasUpdated = true
    · simp only [if_pos hscreen, forall_prop_of_true hscreen]
      by_cases hmapped : hw.screenLocation ≠ 0
      · simp only [if_pos hmapped, forall_prop_of_true hmapped]
        exact hcells
      · simp only [if_neg hmapped]
        exact iff_of_true (fun _ => hclear) fun hsome => absurd hsome hmapped
    · simp only [if_neg hscreen]
      exact iff_of_true (by simp) fun hsome => absurd hsome hscreen
  · by_cases hchanged : hw.borderWasUpdated = true
    · rw [if_pos hchanged, forall_prop_of_true hchanged]
      exact ⟨fun hdraw => hcolor.mp (hdraw 0), fun hfits _ => hcolor.mpr hfits⟩
    · rw [if_neg hchanged]
      exact iff_of_true (by simp) fun hsome => absurd hsome hchanged

end Lem1802

/-! ### Runs -/

/-- What a device accesses when it is called. -/
theorem Devices.Sound.inBounds_iff {d : Devices} (h : d.Sound) (e : HwEvent) :
    d.InBounds e ↔ d.Fits e := by
  have hkeyboard : d.keyboard.Sound := ⟨h.read, h.written⟩
  unfold Devices.InBounds Devices.step Devices.Fits
  cases e with
  | hwiM35fd | hwiSped3 | postCycle | write | closeLem1802 | closeSped3 =>
    exact iff_of_true (by simp) trivial
  | hwiLem1802 r => exact forall_const ℕ |>.trans (d.lem1802.interrupt_inBounds_iff r)
  | hwiKeyboard r => exact forall_const ℕ |>.trans (Keyboard.interrupt_inBounds_iff hkeyboard r)
  | tickM35fd => exact forall_const ℕ |>.trans d.m35fd.cycle_inBounds_iff
  | tickLem1802 ram => exact Lem1802.cycle_inBounds_iff h.border ram
  | tickSped3 => exact forall_const ℕ |>.trans (d.sped3.cycle_inBounds_iff d.hosted)
  | char c => exact iff_of_true (fun _ => Keyboard.handleChar_inBounds hkeyboard c) trivial
  | key key state =>
    exact iff_of_true (fun _ => Keyboard.handleKey_inBounds hkeyboard key state) trivial

/-- The devices stay sound in a run. -/
theorem Devices.Sound.steps {d : Devices} (h : d.Sound) (events : List HwEvent) :
    ∀ s ∈ d.steps events, s.1.Sound := by
  induction events generalizing d with
  | nil =>
    intro s hs
    cases hs
  | cons e events ih =>
    intro s hs
    rcases List.mem_cons.mp hs with rfl | hs
    · exact h
    · exact ih (h.step e 0) s hs

/-- **The devices leave their arrays exactly if a guest lets them**: in every run, all accesses
are to elements that there are if and only if nothing that the guest asks for reaches beyond the
last address, and it does not ask for the key `0x92`. -/
theorem devices_inBounds_iff (disk hosted : Bool) (events : List HwEvent) :
    (∀ s ∈ (Devices.init disk hosted).steps events, s.1.InBounds s.2) ↔
      ∀ s ∈ (Devices.init disk hosted).steps events, s.1.Fits s.2 := by
  have hsound := (Devices.init_sound disk hosted).steps events
  exact forall₂_congr fun s hs => (hsound s hs).inBounds_iff s.2

/-- The keyboard is asked for the key `0x92`, which is not among its `0x92` keys. -/
theorem not_forall_inBounds :
    ¬ ∀ (disk hosted : Bool) (events : List HwEvent),
      ∀ s ∈ (Devices.init disk hosted).steps events, s.1.InBounds s.2 := by
  intro h
  have hkey :=
    h false false [.hwiKeyboard ![2, 0x92, 0, 0, 0, 0, 0, 0]] _ (List.mem_singleton_self _)
  exact absurd (hkey 0 ⟨.keyboardPressed, 0x92⟩ (by decide)) (by decide)

end DcpuToolchain
