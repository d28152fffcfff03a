import DcpuToolchain.Hw.Devices
import Mathlib.Data.Fin.VecNotation

/-!
# What the screen draws

The bytes that the screen writes to its texture, where `DcpuToolchain.Lem1802.putCharToScreen` and
its siblings have only the accesses: the colors, the glyph of a character, and the loop of
`vm_hw_lem1802_update_texture` over the cells.

The loop counts a 16-bit position up to a bound that is computed in `int`. Where the screen ends
below the last address it draws its 384 cells, all inside the texture; where it reaches the last
address the position is always within the bound and the loop has no end
(`DcpuToolchain.Lem1802.drawsScreen_iff`).
-/

namespace DcpuToolchain

/-! ### Memory and colors -/

/-- What the screen reads. -/
structure ScreenMemory where
  ram : Word → Word
  /-- What lies behind the memory, where an `int` index may reach. -/
  beyond : ℕ → Word
  /-- `font_default`. -/
  fontDefault : ℕ → Word

/-- `vm->ram[n]` for an `int` index. -/
def ScreenMemory.ramAt (m : ScreenMemory) (n : ℕ) : Word :=
  if n < 0x10000 then m.ram (BitVec.ofNat 16 n) else m.beyond n

/-- `palette_internal`. -/
def paletteInternal : List Word :=
  [0x0000, 0x000A, 0x00A0, 0x00AA, 0x0A00, 0x0A0A, 0x0A50, 0x0AAA,
    0x0555, 0x055F, 0x05F5, 0x05FF, 0x0F55, 0x0F5F, 0x0FF5, 0x0FFF]

/-- A color in red, green and blue. -/
abbrev Rgb := Fin 3 → BitVec 8

/-- `vm_hw_lem1802_util_raw2rgb`. -/
def raw2rgb (raw : Word) : Rgb :=
  ![(((raw &&& 0xF00) >>> 8) * 17).setWidth 8, (((raw &&& 0x0F0) >>> 4) * 17).setWidth 8,
    ((raw &&& 0x00F) * 17).setWidth 8]

/-- A byte of the texture that is written. -/
structure TextureWrite where
  index : ℕ
  byte : BitVec 8
  deriving DecidableEq, Repr

/-- A pixel of the texture. -/
def putPixel (x y : ℕ) (rgb : Rgb) : List TextureWrite :=
  (List.finRange 3).map fun color => ⟨3 * (y * textureWidth + x) + color.val, rgb color⟩

/-- What the texture holds after some writes. -/
def drawn (writes : List TextureWrite) (texture : ℕ → BitVec 8) : ℕ → BitVec 8 :=
  writes.foldl (fun texture w => Function.update texture w.index w.byte) texture

namespace Lem1802

/-! ### Characters -/

/-- `vm_hw_lem1802_mem_get_palette_color`. -/
def getPaletteColor (hw : Lem1802) (m : ScreenMemory) (idx : ℕ) : Rgb :=
  if hw.paletteLocation = 0 then raw2rgb (paletteInternal.getD idx 0)
  else raw2rgb (m.ramAt (hw.paletteLocation.toNat + idx))

/-- The two words of a glyph as `vm_hw_lem1802_mem_put_char_to_screen` combines them. -/
def fontval32bit (hw : Lem1802) (m : ScreenMemory) (chr : ℕ) : BitVec 32 :=
  let fontvalWord1 :=
    if hw.fontLocation = 0 then m.fontDefault (2 * chr)
    else m.ramAt (hw.fontLocation.toNat + 2 * chr)
  let fontvalWord2 :=
    if hw.fontLocation = 0 then m.fontDefault (2 * chr + 1)
    else m.ramAt (hw.fontLocation.toNat + 2 * chr + 1)
  (fontvalWord1.setWidth 32 <<< 16) ||| fontvalWord2.setWidth 32

/-- Whether a character that may blink shows its foreground. -/
def showForeground (hw : Lem1802) (val : Word) : Bool :=
  let blinkBit := val.getLsbD 7
  (blinkBit && hw.blinkStatus) || !blinkBit

/-- `vm_hw_lem1802_mem_put_char_to_screen`. -/
def putCharToScreenBytes (hw : Lem1802) (m : ScreenMemory) (val : Word) (screenX screenY : ℕ) :
    List TextureWrite :=
  let fore := hw.getPaletteColor m ((val &&& 0xF000) >>> 12).toNat
  let back := hw.getPaletteColor m ((val &&& 0x0F00) >>> 8).toNat
  let glyph := hw.fontval32bit m (val &&& 0x007F).toNat
  (List.range 4).flatMap fun x => (List.range 8).flatMap fun k =>
    -- The rows go from the bottom up, while the shift goes down from 31.
    let y := 7 - k
    let shift := 31 - (8 * x + k)
    putPixel (screenX * 4 + x + 6) (screenY * 8 + y + 6)
      (if glyph.getLsbD shift && hw.showForeground val then fore else back)

/-- `vm_hw_lem1802_mem_draw_border`. -/
def drawBorderBytes (hw : Lem1802) (m : ScreenMemory) : List TextureWrite :=
  let borderclr := hw.getPaletteColor m hw.borderColor.toNat
  (List.range 6).flatMap (fun y =>
    (List.range textureWidth).flatMap fun x => putPixel x y borderclr) ++
  (List.range' 6 (textureHeight - 12)).flatMap (fun y =>
    (List.range 6).flatMap (fun x => putPixel x y borderclr) ++
    (List.range' (textureWidth - 6) 6).flatMap fun x => putPixel x y borderclr) ++
  (List.range' (textureHeight - 6) 6).flatMap (fun y =>
    (List.range textureWidth).flatMap fun x => putPixel x y borderclr)

/-! ### The update -/

/-- The loop of `vm_hw_lem1802_update_texture` over the cells of the screen. `none` says that it
has not ended within the fuel. -/
def drawCellsBytes (hw : Lem1802) (m : ScreenMemory) :
    (fuel : ℕ) → (pos : Word) → (i : ℕ) → Option (List TextureWrite)
  | 0, _, _ => none
  | fuel + 1, pos, i =>
    if pos.toNat ≤ hw.screenLocation.toNat + 0x17F then
      (drawCellsBytes hw m fuel (pos + 1) (i + 1)).map
        (hw.putCharToScreenBytes m (m.ram pos) (i % 32) (i / 32) ++ ·)
    else some []

/-- What `vm_hw_lem1802_update_texture` draws where the screen was updated. -/
def screenBytes (hw : Lem1802) (m : ScreenMemory) (fuel : ℕ) : Option (List TextureWrite) :=
  if hw.screenLocation ≠ 0 then hw.drawCellsBytes m fuel hw.screenLocation 0
  else some ((List.range (3 * textureHeight * textureWidth)).map fun i => ⟨i, 0⟩)

/-- `vm_hw_lem1802_update_texture`. -/
def updateTextureBytes (hw : Lem1802) (m : ScreenMemory) (fuel : ℕ) :
    Option (Lem1802 × List TextureWrite) := do
  let screen ← (if hw.screenWasUpdated then hw.screenBytes m fuel else some [])
  let border := if hw.borderWasUpdated then hw.drawBorderBytes m else []
  some ({ hw with
      screenWasUpdated := false, borderWasUpdated := false
      textureHasChanged := hw.textureHasChanged || hw.screenWasUpdated || hw.borderWasUpdated },
    screen ++ border)

/-- What cell `i` is to be drawn with: the word at the screen's location plus `i`, at column
`i mod 32` and row `i div 32`. -/
def cellBytes (hw : Lem1802) (m : ScreenMemory) (i : ℕ) : List TextureWrite :=
  hw.putCharToScreenBytes m (m.ram (hw.screenLocation + BitVec.ofNat 16 i)) (i % 32) (i / 32)

/-- The update returns, having drawn the 384 cells, and the border where it was updated, all
inside the texture. -/
def DrawsScreen (hw : Lem1802) (m : ScreenMemory) : Prop :=
  ∃ fuel hw' writes, hw.updateTextureBytes m fuel = some (hw', writes) ∧
    writes = (List.range 384).flatMap (hw.cellBytes m) ++
      (if hw.borderWasUpdated then hw.drawBorderBytes m else []) ∧
    (∀ w ∈ writes, w.index < HwArray.glfwTexture.size) ∧ hw'.screenWasUpdated = false

/-! ### Inside the texture -/

theorem mem_putPixel {x y : ℕ} {rgb : Rgb} {w : TextureWrite} :
    w ∈ putPixel x y rgb ↔
      ∃ color : Fin 3, w = ⟨3 * (y * textureWidth + x) + color, rgb color⟩ := by
  simp only [putPixel, List.mem_map, List.mem_finRange, true_and, eq_comm]

theorem putPixel_lt {x y : ℕ} (hx : x < textureWidth) (hy : y < textureHeight) (rgb : Rgb) :
    ∀ w ∈ putPixel x y rgb, w.index < HwArray.glfwTexture.size := by
  intro w hw
  obtain ⟨color, rfl⟩ := mem_putPixel.mp hw
  have hcolor := color.isLt
  have hrow : y * textureWidth + textureWidth ≤ textureHeight * textureWidth := by
    rw [← Nat.succ_mul]
    exact Nat.mul_le_mul_right _ hy
  simp only [HwArray.size]
  rw [Nat.mul_assoc]
  omega

/-- A character that is on the screen is inside the texture. -/
theorem putCharToScreenBytes_lt (hw : Lem1802) (m : ScreenMemory) (val : Word)
    {screenX screenY : ℕ} (hx : screenX < 32) (hy : screenY < 12) :
    ∀ w ∈ hw.putCharToScreenBytes m val screenX screenY, w.index < HwArray.glfwTexture.size := by
  intro w hw
  simp only [putCharToScreenBytes, List.mem_flatMap, List.mem_range] at hw
  obtain ⟨x, hx', k, hk, hw⟩ := hw
  refine putPixel_lt ?_ ?_ _ w hw
  · unfold textureWidth
    omega
  · unfold textureHeight
    omega

theorem drawBorderBytes_lt (hw : Lem1802) (m : ScreenMemory) :
    ∀ w ∈ hw.drawBorderBytes m, w.index < HwArray.glfwTexture.size := by
  intro w hw
  simp only [drawBorderBytes, List.mem_append, List.mem_flatMap, List.mem_range,
    List.mem_range'_1] at hw
  have hwidth : textureWidth = 140 := rfl
  have hheight : textureHeight = 108 := rfl
  rcases hw with (⟨y, hy, x, hx, hw⟩ | ⟨y, hy, ⟨x, hx, hw⟩ | ⟨x, hx, hw⟩⟩) | ⟨y, hy, x, hx, hw⟩
  all_goals exact putPixel_lt (by omega) (by omega) _ w hw

/-! ### The loop -/

variable {hw : Lem1802} {m : ScreenMemory}

/-- **A screen that reaches the last address** keeps the loop going, whatever its fuel. -/
theorem drawCellsBytes_none (hend : 0xFFFF ≤ hw.screenLocation.toNat + 0x17F) (fuel : ℕ)
    (pos : Word) (i : ℕ) : hw.drawCellsBytes m fuel pos i = none := by
  induction fuel generalizing pos i with
  | zero => rfl
  | succ fuel ih =>
    have hpos := pos.isLt
    rw [drawCellsBytes, if_pos (by omega), ih]
    rfl

/-- **A screen that ends below it** is drawn cell by cell. -/
theorem drawCellsBytes_some (hend : hw.screenLocation.toNat + 0x17F < 0xFFFF) {k n fuel : ℕ}
    (hk : k + n = 384) (hfuel : n < fuel) :
    hw.drawCellsBytes m fuel (hw.screenLocation + BitVec.ofNat 16 k) k =
      some ((List.range' k n).flatMap (hw.cellBytes m)) := by
  induction n generalizing k fuel with
  | zero =>
    obtain ⟨fuel, rfl⟩ : ∃ f, fuel = f + 1 := ⟨fuel - 1, by omega⟩
    have hpos : (hw.screenLocation + BitVec.ofNat 16 k).toNat = hw.screenLocation.toNat + k := by
      bv_omega
    rw [drawCellsBytes, if_neg (by omega)]
    rfl
  | succ n ih =>
    obtain ⟨fuel, rfl⟩ : ∃ f, fuel = f + 1 := ⟨fuel - 1, by omega⟩
    have hpos : (hw.screenLocation + BitVec.ofNat 16 k).toNat = hw.screenLocation.toNat + k := by
      bv_omega
    have hnext : hw.screenLocation + BitVec.ofNat 16 k + 1 =
        hw.screenLocation + BitVec.ofNat 16 (k + 1) := by
      rw [BitVec.add_assoc, BitVec.ofNat_add]
      rfl
    rw [drawCellsBytes, if_pos (by omega), hnext, ih (by omega) (by omega), List.range'_succ,
      List.flatMap_cons]
    rfl

/-- **When the screen is drawn**: its last address is not the last of the memory or behind it. -/
theorem drawsScreen_iff (hmapped : hw.screenLocation ≠ 0) (hupdated : hw.screenWasUpdated = true) :
    hw.DrawsScreen m ↔ hw.screenLocation.toNat ≤ 0xFE7F := by
  have hupdate : ∀ fuel, hw.updateTextureBytes m fuel =
      (hw.drawCellsBytes m fuel hw.screenLocation 0).bind fun screen => some ({ hw with
          screenWasUpdated := false, borderWasUpdated := false
          textureHasChanged := hw.textureHasChanged || hw.screenWasUpdated || hw.borderWasUpdated },
        screen ++ if hw.borderWasUpdated then hw.drawBorderBytes m else []) := by
    intro fuel
    rw [updateTextureBytes, if_pos hupdated, screenBytes, if_pos hmapped]
    rfl
  constructor
  · rintro ⟨fuel, hw', writes, hdraw, -⟩
    by_contra hlast
    rw [hupdate, drawCellsBytes_none (by omega)] at hdraw
    cases hdraw
  · intro hlast
    have hcells := @drawCellsBytes_some hw m (by omega) 0 384 385 rfl (by decide)
    rw [show hw.screenLocation + BitVec.ofNat 16 0 = hw.screenLocation from BitVec.add_zero _,
      ← List.range_eq_range'] at hcells
    refine ⟨385, _, _, by rw [hupdate, hcells]; rfl, rfl, ?_, rfl⟩
    intro w hmem
    rcases List.mem_append.mp hmem with hcell | hborder
    · obtain ⟨i, hi, hcell⟩ := List.mem_flatMap.mp hcell
      rw [List.mem_range] at hi
      exact putCharToScreenBytes_lt hw m _ (Nat.mod_lt i (by decide)) (by omega) w hcell
    · split at hborder
      · exact drawBorderBytes_lt hw m w hborder
      · exact absurd hborder List.not_mem_nil

/-- A screen at `0x8000`. -/
def lowScreen : Lem1802 := { screenLocation := 0x8000 }

theorem drawsScreen_lowScreen :
    lowScreen.DrawsScreen ⟨fun _ => 0, fun _ => 0, fun _ => 0⟩ ↔
      lowScreen.screenLocation.toNat ≤ 0xFE7F :=
  drawsScreen_iff (by decide) rfl

/-- A screen at `0xFE80`, which ends with the memory, is never done. -/
theorem not_forall_drawsScreen :
    ¬ ∀ (hw : Lem1802) (m : ScreenMemory), hw.screenLocation ≠ 0 → hw.screenWasUpdated = true →
      hw.DrawsScreen m := by
  intro h
  obtain ⟨fuel, hw', writes, hdraw, -⟩ :=
    h { screenLocation := 0xFE80 } ⟨fun _ => 0, fun _ => 0, fun _ => 0⟩ (by decide) rfl
  rw [updateTextureBytes, if_pos rfl, screenBytes, if_pos (by decide),
    drawCellsBytes_none (by decide)] at hdraw
  cases hdraw

end Lem1802

end DcpuToolchain
