import DcpuToolchain.Hw.Texture

/-!
# The font of the screen

`vm_hw_lem1802_mem_load_default_font` packs a 4 by 8 cell of the font image into two words, two
columns each, the right one in the low byte and the top row in the low bit. A dump recombines the
words and takes them apart again, and a character is drawn from bit 31 down, the left column
first and the bottom row first. The three orders fit: what is drawn with the built-in font is the
image, and a dumped font that is mapped where it was dumped is the built-in font
(`DcpuToolchain.Lem1802.font_faithful`).
-/

namespace DcpuToolchain

/-! ### The built-in font -/

/-- The pixel of the font image at `HW_LEM1802_FONT_RGB_COOR(x, y)`. -/
def fontPixel (image : ℕ → BitVec 8) (x y : ℕ) : BitVec 8 := image (3 * (y * 128 + x))

/-- One of the words that `vm_hw_lem1802_mem_load_default_font` packs: the column `right` and the
one to its left, each from the top row down, from the lowest bit up. -/
def fontWord (image : ℕ → BitVec 8) (right top : ℕ) : Word :=
  (List.range 16).foldl (fun word shift =>
    let x := right - shift / 8
    let y := top + shift % 8
    if 128 < (fontPixel image x y).toNat then word ||| (1#16 <<< shift) else word) 0

/-- `vm_hw_lem1802_mem_load_default_font`: what `font_default` holds afterwards. -/
def loadDefaultFont (image : ℕ → BitVec 8) (n : ℕ) : Word :=
  let character := n / 2
  let imgTopLeftX := character % 32 * 4
  let imgTopLeftY := character / 32 * 8
  if n % 2 = 0 then fontWord image (imgTopLeftX + 1) imgTopLeftY
  else fontWord image (imgTopLeftX + 3) imgTopLeftY

/-- The pixel of a character's cell in the image. -/
def fontCell (image : ℕ → BitVec 8) (chr x y : ℕ) : BitVec 8 :=
  fontPixel image (chr % 32 * 4 + x) (chr / 32 * 8 + y)

/-! ### The dump -/

/-- `vm->ram[n] = w` for an `int` index. -/
def ScreenMemory.writeRamAt (m : ScreenMemory) (n : ℕ) (w : Word) : ScreenMemory :=
  if n < 0x10000 then { m with ram := Function.update m.ram (BitVec.ofNat 16 n) w }
  else { m with beyond := Function.update m.beyond n w }

/-- `vm_hw_lem1802_mem_get_font_default_representation`. -/
def getFontDefaultRepresentation (m : ScreenMemory) (idx : ℕ) : BitVec 32 :=
  ((m.fontDefault (2 * idx)).setWidth 32 <<< 16) + (m.fontDefault (2 * idx + 1)).setWidth 32

/-- A turn of the loop of `LEM1802_MEM_DUMP_FONT`. -/
def dumpGlyph (pos : Word) (m : ScreenMemory) (idx : ℕ) : ScreenMemory :=
  let store := getFontDefaultRepresentation m idx
  let m := m.writeRamAt (pos.toNat + idx * 2) ((store >>> 16).setWidth 16)
  m.writeRamAt (pos.toNat + idx * 2 + 1) (((store <<< 16) >>> 16).setWidth 16)

/-- `LEM1802_MEM_DUMP_FONT`. -/
def dumpFont (m : ScreenMemory) (pos : Word) : ScreenMemory :=
  (List.range 128).foldl (dumpGlyph pos) m

/-! ### Bits -/

/-- Bits that are set one after the other. -/
theorem getLsbD_foldl_or (p : ℕ → Prop) [DecidablePred p] (n : ℕ) {s : ℕ} (hs : s < 16) :
    ((List.range n).foldl (fun (word : Word) shift =>
      if p shift then word ||| (1#16 <<< shift) else word) 0).getLsbD s = decide (s < n ∧ p s) := by
  induction n with
  | zero => simp
  | succ n ih =>
    rw [List.range_succ, List.foldl_append, List.foldl_cons, List.foldl_nil]
    have hbit : (1#16 <<< n).getLsbD s = decide (s = n) := by
      rw [BitVec.getLsbD_shiftLeft, BitVec.getLsbD_one]
      rcases Nat.lt_trichotomy s n with hlt | rfl | hgt
      · simp [hlt, hlt.ne]
      · simp [hs]
      · have hne : s - n ≠ 0 := by omega
        simp [hne, hgt.ne']
    split
    · rename_i hp
      rw [BitVec.getLsbD_or, ih, hbit, ← Bool.decide_or]
      refine decide_eq_decide.mpr ⟨?_, ?_⟩
      · rintro (⟨hlt, hps⟩ | rfl)
        · exact ⟨by omega, hps⟩
        · exact ⟨by omega, hp⟩
      · rintro ⟨hlt, hps⟩
        rcases Nat.lt_succ_iff_lt_or_eq.mp hlt with hlt | heq
        · exact .inl ⟨hlt, hps⟩
        · exact .inr heq
    · rename_i hp
      rw [ih]
      refine decide_eq_decide.mpr (and_congr_left fun hps => ?_)
      have hne : s ≠ n := fun heq => hp (heq ▸ hps)
      omega

theorem getLsbD_fontWord (image : ℕ → BitVec 8) (right top : ℕ) {s : ℕ} (hs : s < 16) :
    (fontWord image right top).getLsbD s =
      decide (128 < (fontPixel image (right - s / 8) (top + s % 8)).toNat) := by
  rw [fontWord, getLsbD_foldl_or _ 16 hs]
  simp [hs]

/-- The two words of a glyph, the first above the second. -/
theorem getLsbD_combined (first second : Word) (s : ℕ) :
    ((first.setWidth 32 <<< 16) ||| second.setWidth 32).getLsbD s =
      if s < 16 then second.getLsbD s else decide (s < 32) && first.getLsbD (s - 16) := by
  rw [BitVec.getLsbD_or, BitVec.getLsbD_shiftLeft, BitVec.getLsbD_setWidth, BitVec.getLsbD_setWidth]
  split
  · rename_i hs
    have hs' : s < 32 := by omega
    simp [hs, hs']
  · rename_i hs
    have hsecond : second.getLsbD s = false := BitVec.getLsbD_of_ge second s (by omega)
    rcases Nat.lt_or_ge s 32 with hs' | hs'
    · have hs'' : s - 16 < 32 := by omega
      simp [hs, hs', hs'', hsecond]
    · have hs'' : ¬ s < 32 := by omega
      simp [hs'', hsecond]

namespace Lem1802

variable {hw : Lem1802} {m : ScreenMemory} {image : ℕ → BitVec 8}

/-- **The bit that is drawn is the pixel of the image.** -/
theorem getLsbD_fontval32bit (hfont : hw.fontLocation = 0)
    (hm : m.fontDefault = loadDefaultFont image) (chr : ℕ) {x k : ℕ} (hx : x < 4) (hk : k < 8) :
    (hw.fontval32bit m chr).getLsbD (31 - (8 * x + k)) =
      decide (128 < (fontCell image chr x (7 - k)).toNat) := by
  have heven : 2 * chr % 2 = 0 := Nat.mul_mod_right 2 chr
  have hodd : (2 * chr + 1) % 2 ≠ 0 := by omega
  have hhalf : 2 * chr / 2 = chr := by omega
  have hhalf' : (2 * chr + 1) / 2 = chr := by omega
  rw [fontval32bit, if_pos hfont, if_pos hfont, hm, getLsbD_combined, loadDefaultFont,
    loadDefaultFont, if_pos heven, if_neg hodd, hhalf, hhalf']
  rcases Nat.lt_or_ge x 2 with hleft | hright
  · -- The left two columns are in the first word.
    have hcolumn : chr % 32 * 4 + 1 - (31 - (8 * x + k) - 16) / 8 = chr % 32 * 4 + x := by omega
    have hrow : chr / 32 * 8 + (31 - (8 * x + k) - 16) % 8 = chr / 32 * 8 + (7 - k) := by omega
    rw [if_neg (by omega), getLsbD_fontWord image _ _ (by omega), hcolumn, hrow,
      decide_eq_true (by omega : 31 - (8 * x + k) < 32), Bool.true_and]
    rfl
  · have hcolumn : chr % 32 * 4 + 3 - (31 - (8 * x + k)) / 8 = chr % 32 * 4 + x := by omega
    have hrow : chr / 32 * 8 + (31 - (8 * x + k)) % 8 = chr / 32 * 8 + (7 - k) := by omega
    rw [if_pos (by omega), getLsbD_fontWord image _ _ (by omega), hcolumn, hrow]
    rfl

end Lem1802

/-! ### What is drawn -/

/-- A byte to which nothing is written. -/
theorem drawn_of_not_mem {writes : List TextureWrite} {i : ℕ} (h : ∀ w ∈ writes, w.index ≠ i)
    (texture : ℕ → BitVec 8) : drawn writes texture i = texture i := by
  induction writes generalizing texture with
  | nil => rfl
  | cons w writes ih =>
    rw [drawn, List.foldl_cons]
    refine (ih (fun v hv => h v (List.mem_cons_of_mem _ hv)) _).trans ?_
    exact Function.update_of_ne (h w List.mem_cons_self).symm _ _

/-- A byte to which every write writes the same. -/
theorem drawn_of_mem {writes : List TextureWrite} {i : ℕ} {b : BitVec 8}
    (hmem : ⟨i, b⟩ ∈ writes) (hsame : ∀ w ∈ writes, w.index = i → w.byte = b)
    (texture : ℕ → BitVec 8) : drawn writes texture i = b := by
  induction writes generalizing texture with
  | nil => exact absurd hmem List.not_mem_nil
  | cons w writes ih =>
    rw [drawn, List.foldl_cons]
    have hrest : ∀ v ∈ writes, v.index = i → v.byte = b :=
      fun v hv => hsame v (List.mem_cons_of_mem _ hv)
    by_cases hlater : ∃ v ∈ writes, v.index = i
    · obtain ⟨v, hv, rfl⟩ := hlater
      have hbyte := hrest v hv rfl
      exact ih (hbyte ▸ hv) hrest _
    · -- The byte is written by the first write, and not after it.
      have hfirst : w = ⟨i, b⟩ := by
        rcases List.mem_cons.mp hmem with heq | hmem
        · exact heq.symm
        · exact absurd ⟨_, hmem, rfl⟩ hlater
      refine (drawn_of_not_mem (fun v hv heq => hlater ⟨v, hv, heq⟩) _).trans ?_
      rw [hfirst]
      exact Function.update_self _ _ _

namespace Lem1802

variable {hw : Lem1802} {m : ScreenMemory} {image : ℕ → BitVec 8}

/-- The index of a color of a pixel of a cell of the screen. -/
def cellIndex (screenX screenY x y : ℕ) (color : Fin 3) : ℕ :=
  3 * ((screenY * 8 + y + 6) * textureWidth + (screenX * 4 + x + 6)) + color

theorem cellIndex_inj {screenX screenY x y x' y' : ℕ} {color color' : Fin 3} (hx : x < 4)
    (hx' : x' < 4)
    (h : cellIndex screenX screenY x y color = cellIndex screenX screenY x' y' color') :
    x = x' ∧ y = y' ∧ color = color' := by
  have hcolor := color.isLt
  have hcolor' := color'.isLt
  have hwidth : textureWidth = 140 := rfl
  rw [cellIndex, cellIndex, hwidth] at h
  exact ⟨by omega, by omega, Fin.ext (by omega)⟩

theorem mem_putCharToScreenBytes {val : Word} {screenX screenY : ℕ} {w : TextureWrite} :
    w ∈ hw.putCharToScreenBytes m val screenX screenY ↔ ∃ x < 4, ∃ y < 8, ∃ color : Fin 3,
      w = ⟨cellIndex screenX screenY x y color,
        (if (hw.fontval32bit m (val &&& 0x007F).toNat).getLsbD (31 - (8 * x + (7 - y))) &&
            hw.showForeground val then
          hw.getPaletteColor m ((val &&& 0xF000) >>> 12).toNat
        else hw.getPaletteColor m ((val &&& 0x0F00) >>> 8).toNat) color⟩ := by
  simp only [putCharToScreenBytes, List.mem_flatMap, List.mem_range]
  constructor
  · rintro ⟨x, hx, k, hk, hw⟩
    obtain ⟨color, rfl⟩ := mem_putPixel.mp hw
    refine ⟨x, hx, 7 - k, by omega, color, ?_⟩
    rw [show 7 - (7 - k) = k by omega]
    rfl
  · rintro ⟨x, hx, y, hy, color, rfl⟩
    refine ⟨x, hx, 7 - y, by omega, mem_putPixel.mpr ⟨color, ?_⟩⟩
    rw [show 7 - (7 - y) = y by omega]
    rfl

/-- **A character of the built-in font is the cell of the image.** -/
theorem drawn_putCharToScreenBytes (hfont : hw.fontLocation = 0)
    (hm : m.fontDefault = loadDefaultFont image) (val : Word) (screenX screenY : ℕ) {x y : ℕ}
    (hx : x < 4) (hy : y < 8) (color : Fin 3) (texture : ℕ → BitVec 8) :
    drawn (hw.putCharToScreenBytes m val screenX screenY) texture
        (cellIndex screenX screenY x y color) =
      (if hw.showForeground val ∧ 128 < (fontCell image (val &&& 0x007F).toNat x y).toNat then
        hw.getPaletteColor m ((val &&& 0xF000) >>> 12).toNat
      else hw.getPaletteColor m ((val &&& 0x0F00) >>> 8).toNat) color := by
  have hbit := getLsbD_fontval32bit hfont hm (val &&& 0x007F).toNat hx (by omega : 7 - y < 8)
  rw [show 7 - (7 - y) = y by omega] at hbit
  refine (drawn_of_mem (mem_putCharToScreenBytes.mpr ⟨x, hx, y, hy, color, rfl⟩) ?_ texture).trans
    ?_
  · intro w hw hindex
    obtain ⟨x', hx', y', hy', color', rfl⟩ := mem_putCharToScreenBytes.mp hw
    obtain ⟨rfl, rfl, rfl⟩ := cellIndex_inj hx' hx hindex
    rfl
  · rw [hbit]
    simp only [Bool.and_eq_true, decide_eq_true_eq, and_comm]

/-! ### A dumped font -/

/-- A dump takes the words apart again. -/
theorem getFontDefaultRepresentation_words (m : ScreenMemory) (idx : ℕ) :
    (getFontDefaultRepresentation m idx >>> 16).setWidth 16 = m.fontDefault (2 * idx) ∧
      ((getFontDefaultRepresentation m idx <<< 16) >>> 16).setWidth 16 =
        m.fontDefault (2 * idx + 1) := by
  have hfirst := (m.fontDefault (2 * idx)).isLt
  have hsecond := (m.fontDefault (2 * idx + 1)).isLt
  have hstore : (getFontDefaultRepresentation m idx).toNat =
      (m.fontDefault (2 * idx)).toNat * 2 ^ 16 + (m.fontDefault (2 * idx + 1)).toNat := by
    rw [getFontDefaultRepresentation, BitVec.toNat_add, BitVec.toNat_shiftLeft, Nat.shiftLeft_eq,
      BitVec.toNat_setWidth_of_le (by decide), BitVec.toNat_setWidth_of_le (by decide)]
    omega
  constructor <;> apply BitVec.eq_of_toNat_eq
  · rw [BitVec.toNat_setWidth, BitVec.toNat_ushiftRight, hstore, Nat.shiftRight_eq_div_pow]
    omega
  · rw [BitVec.toNat_setWidth, BitVec.toNat_ushiftRight, BitVec.toNat_shiftLeft, hstore,
      Nat.shiftLeft_eq, Nat.shiftRight_eq_div_pow]
    omega

/-- What one turn of the loop writes, inside the memory. -/
theorem dumpGlyph_ram (m : ScreenMemory) {pos : Word} {idx : ℕ}
    (hend : pos.toNat + idx * 2 + 1 < 0x10000) :
    (dumpGlyph pos m idx).fontDefault = m.fontDefault ∧
      (dumpGlyph pos m idx).ram = Function.update
        (Function.update m.ram (pos + BitVec.ofNat 16 (2 * idx)) (m.fontDefault (2 * idx)))
        (pos + BitVec.ofNat 16 (2 * idx + 1)) (m.fontDefault (2 * idx + 1)) := by
  obtain ⟨hfirst, hsecond⟩ := getFontDefaultRepresentation_words m idx
  have haddr : ∀ k, BitVec.ofNat 16 (pos.toNat + k) = pos + BitVec.ofNat 16 k := by
    intro k
    rw [BitVec.ofNat_add, BitVec.ofNat_toNat, BitVec.setWidth_eq]
  simp only [dumpGlyph, ScreenMemory.writeRamAt, hfirst, hsecond]
  rw [if_pos (by omega : pos.toNat + idx * 2 < 0x10000)]
  rw [if_pos hend, Nat.add_assoc, haddr, haddr, Nat.mul_comm idx 2]
  exact ⟨rfl, rfl⟩

/-- **A dump holds the built-in font.** -/
theorem dumpFont_ram (m : ScreenMemory) {pos : Word} (hend : pos.toNat + 255 < 0x10000) {n : ℕ}
    (hn : n < 256) : (dumpFont m pos).ram (pos + BitVec.ofNat 16 n) = m.fontDefault n := by
  have hloop : ∀ k ≤ 128, ((List.range k).foldl (dumpGlyph pos) m).fontDefault = m.fontDefault ∧
      ∀ n < 2 * k, ((List.range k).foldl (dumpGlyph pos) m).ram (pos + BitVec.ofNat 16 n) =
        m.fontDefault n := by
    intro k hk
    induction k with
    | zero => exact ⟨rfl, fun n hn => absurd hn (Nat.not_lt_zero n)⟩
    | succ k ih =>
      obtain ⟨hfont, hram⟩ := ih (by omega)
      rw [List.range_succ, List.foldl_append, List.foldl_cons, List.foldl_nil]
      obtain ⟨hfont', hram'⟩ := dumpGlyph_ram ((List.range k).foldl (dumpGlyph pos) m)
        (by omega : pos.toNat + k * 2 + 1 < 0x10000)
      refine ⟨hfont'.trans hfont, fun n hn => ?_⟩
      rw [hram', hfont]
      have hne : ∀ j, j < 256 → n ≠ j → pos + BitVec.ofNat 16 n ≠ pos + BitVec.ofNat 16 j := by
        intro j hj hne
        bv_omega
      by_cases hsecond : n = 2 * k + 1
      · rw [hsecond, Function.update_self]
      · rw [Function.update_of_ne (hne _ (by omega) hsecond)]
        by_cases hfirst : n = 2 * k
        · rw [hfirst, Function.update_self]
        · rw [Function.update_of_ne (hne _ (by omega) hfirst)]
          exact hram n (by omega)
  exact (hloop 128 (Nat.le_refl _)).2 n (by omega)

/-- A write to the font, where that does not reach the end of the memory. -/
theorem write_font (hw : Lem1802) {pos : Word} {i : ℕ} (hfont : hw.fontLocation = pos)
    (hpos : pos ≠ 0) (hend : pos.toNat + 255 < 0x10000) (hi : i < 0x100) :
    hw.write (pos + BitVec.ofNat 16 i) = { hw with screenWasUpdated := true } := by
  unfold write
  split
  · rfl
  · rw [if_pos ⟨hfont ▸ hpos, by rw [hfont]; bv_omega, by rw [hfont]; bv_omega⟩]

/-- Mapping a font that does not reach the end of the memory. -/
theorem interrupt_mapFont (hw : Lem1802) (r : Registers) (hr : r 0 = 1)
    (hend : (r 1).toNat + 255 < 0x10000) :
    (hw.interrupt r).1 = { hw with fontLocation := r 1, screenWasUpdated := true } := by
  have hset : ∃ b, hw.setFont (r 1) = { hw with fontLocation := r 1, screenWasUpdated := b } := by
    unfold setFont
    split
    · exact ⟨hw.screenWasUpdated, rfl⟩
    · rename_i hpos
      refine List.foldlRecOn (motive := fun hw' : Lem1802 =>
        ∃ b, hw' = { hw with fontLocation := r 1, screenWasUpdated := b }) _ _
        ⟨hw.screenWasUpdated, rfl⟩ ?_
      rintro hw' ⟨b, rfl⟩ i hi
      exact ⟨true, write_font _ rfl hpos hend (List.mem_range.mp hi)⟩
  obtain ⟨b, hset⟩ := hset
  rw [interrupt, if_neg (by rw [hr]; decide), if_pos hr, hset]

/-- A font that is mapped where the built-in font was dumped is the built-in font. -/
theorem fontval32bit_dumped {pos : Word} (hpos : pos ≠ 0) (hend : pos.toNat + 255 < 0x10000)
    {m' : ScreenMemory} (hfont : m'.fontDefault = m.fontDefault)
    (hram : ∀ n < 256,
      m'.ram (pos + BitVec.ofNat 16 n) = (dumpFont m pos).ram (pos + BitVec.ofNat 16 n))
    {chr : ℕ} (hchr : chr < 128) :
    { hw with fontLocation := pos }.fontval32bit m' chr =
      { hw with fontLocation := 0 }.fontval32bit m' chr := by
  have hword : ∀ n < 256, m'.ramAt (pos.toNat + n) = m'.fontDefault n := by
    intro n hn
    rw [ScreenMemory.ramAt, if_pos (by omega), BitVec.ofNat_add, BitVec.ofNat_toNat,
      BitVec.setWidth_eq, hram n hn, dumpFont_ram m hend hn, hfont]
  simp only [fontval32bit, hpos, if_false, if_true, Nat.add_assoc]
  rw [hword _ (by omega), hword _ (by omega)]

/-- The bytes of an update: the screen's, and behind them the border's. -/
theorem map_snd_updateTextureBytes (hw : Lem1802) (m : ScreenMemory) (fuel : ℕ) :
    (hw.updateTextureBytes m fuel).map Prod.snd =
      (if hw.screenWasUpdated then hw.screenBytes m fuel else some []).map
        (· ++ if hw.borderWasUpdated then hw.drawBorderBytes m else []) := by
  unfold updateTextureBytes
  cases (if hw.screenWasUpdated then hw.screenBytes m fuel else some []) <;> rfl

section Dumped

variable {pos : Word} (hpos : pos ≠ 0) (hend : pos.toNat + 255 < 0x10000) {m' : ScreenMemory}
  (hfont : m'.fontDefault = m.fontDefault)
  (hram : ∀ n < 256,
    m'.ram (pos + BitVec.ofNat 16 n) = (dumpFont m pos).ram (pos + BitVec.ofNat 16 n))

include hpos hend hfont hram

theorem putCharToScreenBytes_dumped (hw : Lem1802) (val : Word) (screenX screenY : ℕ) :
    { hw with fontLocation := pos }.putCharToScreenBytes m' val screenX screenY =
      { hw with fontLocation := 0 }.putCharToScreenBytes m' val screenX screenY := by
  have hchr : (val &&& 0x007F).toNat < 128 := by
    rw [BitVec.toNat_and]
    exact Nat.lt_succ_of_le Nat.and_le_right
  rw [putCharToScreenBytes, fontval32bit_dumped hpos hend hfont hram hchr]
  rfl

theorem drawCellsBytes_dumped (hw : Lem1802) (fuel : ℕ) (addr : Word) (i : ℕ) :
    { hw with fontLocation := pos }.drawCellsBytes m' fuel addr i =
      { hw with fontLocation := 0 }.drawCellsBytes m' fuel addr i := by
  induction fuel generalizing addr i with
  | zero => rfl
  | succ fuel ih =>
    rw [drawCellsBytes, drawCellsBytes, ih, putCharToScreenBytes_dumped hpos hend hfont hram]

/-- **A dumped font gives the texture of the built-in font.** -/
theorem updateTextureBytes_dumped (hw : Lem1802) (fuel : ℕ) :
    ({ hw with fontLocation := pos }.updateTextureBytes m' fuel).map Prod.snd =
      ({ hw with fontLocation := 0 }.updateTextureBytes m' fuel).map Prod.snd := by
  have hscreen : { hw with fontLocation := pos }.screenBytes m' fuel =
      { hw with fontLocation := 0 }.screenBytes m' fuel := by
    simp only [screenBytes, drawCellsBytes_dumped hpos hend hfont hram]
  rw [map_snd_updateTextureBytes, map_snd_updateTextureBytes, hscreen]
  rfl

end Dumped

/-- A font image that is white everywhere. -/
def allLit : ScreenMemory := ⟨fun _ => 0, fun _ => 0, loadDefaultFont fun _ => 0xFF⟩

/-- The same with a dump in the memory. -/
def allLitDumped : ScreenMemory := { allLit with ram := (dumpFont allLit 0x1000).ram }

end Lem1802

end DcpuToolchain
