import DcpuToolchain.Isa
import Mathlib.Logic.Function.Basic

/-!
# The devices

The disk drive (`hwm35fd.c`), the screen (`hwlem1802.c`, `hwlem1802mem.c`), the keyboard
(`hwkeyboard.c`), the vector display (`hwsped3.c`) and the clock (`hwclock.c`), with the arrays
they access: each access is an index into an array, computed as the source computes it, in `int`.
What the accesses transfer is left out, and so are the interrupts that the devices raise.

A device is called for an `HWI`, which gives it the registers, and for the hooks it has
registered. In between the guest does to the memory what it likes, so the memory is an argument
where its contents matter.
-/

namespace DcpuToolchain

/-! ### Arrays -/

/-- The arrays that devices access. -/
inductive HwArray
  | ram | glfwTexture | fontDefault | paletteInternal | keyboardBuffer | keyboardPressed
  deriving DecidableEq, Repr

/-- `HW_LEM1802_SCREEN_TEXTURE_WIDTH`. -/
def textureWidth : ℕ := 32 * 4 + 2 * 6

/-- `HW_LEM1802_SCREEN_TEXTURE_HEIGHT`. -/
def textureHeight : ℕ := 12 * 8 + 2 * 6

/-- `KB_BUFFER_COUNT`. -/
def kbBufferCount : ℕ := 100

/-- `KB_PRESSED_COUNT`. -/
def kbPressedCount : ℕ := 0x92

/-- How many elements are allocated. -/
def HwArray.size : HwArray → ℕ
  | ram => 0x10000
  | glfwTexture => 3 * textureHeight * textureWidth
  | fontDefault => 128 * 2
  | paletteInternal => 16
  | keyboardBuffer => kbBufferCount
  | keyboardPressed => kbPressedCount

/-- An element that is read or written. -/
structure Access where
  array : HwArray
  index : ℕ
  deriving DecidableEq, Repr

/-- An access to an element that there is. -/
def Access.InBounds (a : Access) : Prop := a.index < a.array.size

instance (a : Access) : Decidable a.InBounds := Nat.decLt _ _

/-- The registers, in the order `A`, `B`, `C`, `X`, `Y`, `Z`, `I`, `J`. -/
abbrev Registers := Fin 8 → Word

/-! ### The disk drive -/

/-- `struct m35fd_hardware`. -/
structure M35fd where
  interruptMsg : Word := 0
  state : Word := 0
  lastError : Word := 0
  /-- Whether `disk` is not `NULL`. -/
  disk : Bool := false
  sector : Word := 0
  position : Word := 0
  reading : Bool := false
  writing : Bool := false
  writeProtected : Bool := false

namespace M35fd

/-- `M35FD_STATE_NO_MEDIA`. -/
def noMedia : Word := 0

/-- `M35FD_STATE_READY`. -/
def ready : Word := 1

/-- `M35FD_STATE_READY_WP`. -/
def readyWp : Word := 2

/-- `M35FD_STATE_BUSY`. -/
def busy : Word := 3

/-- `vm_hw_m35fd_interrupt`. A poll falls through to the message. -/
def interrupt (hw : M35fd) (r : Registers) : M35fd × Registers :=
  if r 0 = 0 then
    ({ hw with lastError := 0, interruptMsg := r 3 },
      Function.update (Function.update r 1 hw.state) 2 hw.lastError)
  else if r 0 = 1 then ({ hw with interruptMsg := r 3 }, r)
  else if r 0 = 2 then
    if (hw.state = ready ∨ hw.state = readyWp) ∧ hw.reading = false ∧ hw.writing = false then
      ({ hw with reading := true, sector := r 3, position := r 4, state := busy },
        Function.update r 1 1)
    else ({ hw with lastError := 1 }, Function.update r 1 0)
  else if r 0 = 3 then
    if hw.state = ready ∧ hw.reading = false ∧ hw.writing = false then
      ({ hw with writing := true, sector := r 3, position := r 4, state := busy },
        Function.update r 1 1)
    else ({ hw with lastError := 1 }, Function.update r 1 0)
  else (hw, r)

/-- `vm_hw_m35fd_reset_state`. -/
def resetState (hw : M35fd) : M35fd :=
  { hw with
    sector := 0, reading := false, writing := false, position := 0
    state := if hw.writeProtected then readyWp else ready }

/-- The transfer of a sector. -/
def transfer (hw : M35fd) : List Access :=
  (List.range 512).map fun i => ⟨.ram, hw.position.toNat + i⟩

/-- What `vm_hw_m35fd_cycle` checks before it transfers anything. -/
def checked (hw : M35fd) : M35fd :=
  let hw := if hw.disk = false ∧ (hw.state = readyWp ∨ hw.state = ready) then
    resetState { hw with lastError := 4 } else hw
  if 1440 < hw.sector then hw.resetState else hw

/-- `vm_hw_m35fd_cycle`. -/
def cycle (hw : M35fd) : M35fd × List Access :=
  if hw.state = noMedia ∧ (hw.reading = true ∨ hw.writing = true) then
    (resetState { hw with lastError := 2 }, [])
  else
    let hw := hw.checked
    let r := if hw.reading then (hw.resetState, hw.transfer) else (hw, [])
    if r.1.writing then (r.1.resetState, r.2 ++ r.1.transfer) else r

end M35fd

/-! ### The screen -/

/-- `struct lem1802_hardware`. -/
structure Lem1802 where
  paletteLocation : Word := 0
  fontLocation : Word := 0
  screenLocation : Word := 0
  borderColor : Word := 0
  borderWasUpdated : Bool := true
  screenWasUpdated : Bool := true
  blinkStatus : Bool := true
  blinkTick : ℕ := 0
  textureHasChanged : Bool := true
  windowClosed : Bool := false

namespace Lem1802

/-- `vm_hw_lem1802_write`. -/
def write (hw : Lem1802) (pos : Word) : Lem1802 :=
  if hw.screenLocation ≠ 0 ∧ hw.screenLocation ≤ pos ∧
      pos.toNat ≤ hw.screenLocation.toNat + 0x17F then
    { hw with screenWasUpdated := true }
  else if hw.fontLocation ≠ 0 ∧ hw.fontLocation ≤ pos ∧
      pos.toNat < hw.fontLocation.toNat + 0x100 then
    { hw with screenWasUpdated := true }
  else if hw.paletteLocation ≠ 0 ∧ hw.paletteLocation ≤ pos ∧
      pos.toNat < hw.paletteLocation.toNat + 0x10 then
    { hw with screenWasUpdated := true, borderWasUpdated := true }
  else hw

/-- `vm_hw_lem1802_mem_set_font`. -/
def setFont (hw : Lem1802) (pos : Word) : Lem1802 :=
  let hw := { hw with fontLocation := pos }
  if pos = 0 then hw
  else (List.range 0x100).foldl (fun hw i => hw.write (pos + BitVec.ofNat 16 i)) hw

/-- `vm_hw_lem1802_interrupt`, with the accesses of the dumps. -/
def interrupt (hw : Lem1802) (r : Registers) : Lem1802 × List Access :=
  if r 0 = 0 then ({ hw with screenLocation := r 1, screenWasUpdated := true }, [])
  else if r 0 = 1 then ({ hw.setFont (r 1) with screenWasUpdated := true }, [])
  else if r 0 = 2 then
    ({ hw with paletteLocation := r 1, screenWasUpdated := true, borderWasUpdated := true }, [])
  else if r 0 = 3 then ({ hw with borderColor := r 1 &&& 0xF, borderWasUpdated := true }, [])
  else if r 0 = 4 then
    (hw, (List.range 128).flatMap fun idx =>
      [⟨.fontDefault, 2 * idx⟩, ⟨.fontDefault, 2 * idx + 1⟩,
        ⟨.ram, (r 1).toNat + idx * 2⟩, ⟨.ram, (r 1).toNat + idx * 2 + 1⟩])
  else if r 0 = 5 then
    (hw, (List.range 16).flatMap fun idx =>
      [⟨.paletteInternal, idx⟩, ⟨.ram, (r 1).toNat + idx⟩])
  else (hw, [])

/-- `vm_hw_lem1802_mem_get_palette_color`. -/
def paletteColor (hw : Lem1802) (idx : ℕ) : Access :=
  if hw.paletteLocation = 0 then ⟨.paletteInternal, idx⟩
  else ⟨.ram, hw.paletteLocation.toNat + idx⟩

/-- The word of a glyph; there are two. -/
def glyphWord (hw : Lem1802) (chr half : ℕ) : Access :=
  if hw.fontLocation = 0 then ⟨.fontDefault, 2 * chr + half⟩
  else ⟨.ram, hw.fontLocation.toNat + 2 * chr + half⟩

/-- A pixel of the texture, in its three colors. -/
def pixel (x y : ℕ) : List Access :=
  (List.range 3).map fun color => ⟨.glfwTexture, 3 * (y * textureWidth + x) + color⟩

/-- `vm_hw_lem1802_mem_put_char_to_screen`. -/
def putCharToScreen (hw : Lem1802) (val : Word) (screenX screenY : ℕ) : List Access :=
  [hw.paletteColor ((val &&& 0xF000) >>> 12).toNat,
    hw.paletteColor ((val &&& 0x0F00) >>> 8).toNat,
    hw.glyphWord (val &&& 0x007F).toNat 0, hw.glyphWord (val &&& 0x007F).toNat 1] ++
  (List.range 4).flatMap fun x => (List.range 8).flatMap fun y =>
    pixel (screenX * 4 + x + 6) (screenY * 8 + y + 6)

/-- `vm_hw_lem1802_mem_draw_border`. -/
def drawBorder (hw : Lem1802) : List Access :=
  [hw.paletteColor hw.borderColor.toNat] ++
  (List.range 6).flatMap (fun y => (List.range textureWidth).flatMap fun x => pixel x y) ++
  (List.range' 6 (textureHeight - 12)).flatMap (fun y =>
    (List.range 6).flatMap (fun x => pixel x y) ++
    (List.range' (textureWidth - 6) 6).flatMap fun x => pixel x y) ++
  (List.range' (textureHeight - 6) 6).flatMap (fun y =>
    (List.range textureWidth).flatMap fun x => pixel x y)

/-- The loop of `vm_hw_lem1802_update_texture` over the cells of the screen, as far as `fuel`
goes. The position has as many bits as an address, so that the loop has no end where the
screen reaches the last address. -/
def drawCells (hw : Lem1802) (ram : Word → Word) : (fuel : ℕ) → (pos : Word) → (i : ℕ) → List Access
  | 0, _, _ => []
  | fuel + 1, pos, i =>
    if pos.toNat ≤ hw.screenLocation.toNat + 0x17F then
      [⟨.ram, pos.toNat⟩] ++ hw.putCharToScreen (ram pos) (i % 32) (i / 32) ++
        drawCells hw ram fuel (pos + 1) (i + 1)
    else []

/-- `vm_hw_lem1802_update_texture`. -/
def updateTexture (hw : Lem1802) (ram : Word → Word) (fuel : ℕ) : Lem1802 × List Access :=
  ({ hw with
      screenWasUpdated := false, borderWasUpdated := false
      textureHasChanged := hw.textureHasChanged || hw.screenWasUpdated || hw.borderWasUpdated },
    (if hw.screenWasUpdated then
      if hw.screenLocation ≠ 0 then hw.drawCells ram fuel hw.screenLocation 0
      else (List.range (3 * textureHeight * textureWidth)).map fun i => ⟨.glfwTexture, i⟩
    else []) ++
    if hw.borderWasUpdated then hw.drawBorder else [])

/-- The blinking in `vm_hw_lem1802_cycle`. -/
def blink (hw : Lem1802) : Lem1802 :=
  if hw.blinkTick < 60 then { hw with blinkTick := hw.blinkTick + 1 }
  else { hw with blinkTick := 0, blinkStatus := !hw.blinkStatus, screenWasUpdated := true }

/-- `vm_hw_lem1802_cycle`. -/
def cycle (hw : Lem1802) (ram : Word → Word) (fuel : ℕ) : Lem1802 × List Access :=
  if hw.windowClosed then (hw, []) else hw.blink.updateTexture ram fuel

end Lem1802

/-! ### The keyboard -/

/-- `struct keyboard_hardware`. -/
structure Keyboard where
  buffer : ℕ → Word := fun _ => 0
  bufferIdxR : ℕ := 0
  bufferIdxW : ℕ := 0
  pressed : ℕ → Bool := fun _ => false
  controlLeft : Bool := false
  controlRight : Bool := false
  shiftLeft : Bool := false
  shiftRight : Bool := false
  pendingInterrupt : Bool := false
  interruptMessage : Word := 0

namespace Keyboard

/-- An index of the buffer after another. -/
def nextIdx (i : ℕ) : ℕ := if kbBufferCount ≤ i + 1 then 0 else i + 1

/-- `vm_hw_keyboard_append_to_buffer`; the oldest character is discarded if there is no room. -/
def appendToBuffer (hw : Keyboard) (index : ℕ) : Keyboard × List Access :=
  let w := nextIdx hw.bufferIdxW
  ({ hw with
      buffer := Function.update hw.buffer hw.bufferIdxW (BitVec.ofNat 16 index)
      bufferIdxW := w
      bufferIdxR := if hw.bufferIdxR = w then nextIdx hw.bufferIdxR else hw.bufferIdxR },
    [⟨.keyboardBuffer, hw.bufferIdxW⟩])

/-- `vm_hw_keyboard_handle_char`. -/
def handleChar (hw : Keyboard) (c : ℤ) : Keyboard × List Access :=
  if 0 ≤ c ∧ c < kbPressedCount then hw.appendToBuffer c.toNat else (hw, [])

/-- A key is pressed or released. -/
def press (hw : Keyboard) (index : ℕ) (state : Bool) : Keyboard :=
  { hw with pressed := Function.update hw.pressed index state }

/-- The keys that have an index of their own, less the modifiers: backspace, the two enter keys,
insert, delete and the arrows. -/
def specialKeys : List (ℕ × ℕ) :=
  [(259, 0x10), (335, 0x11), (257, 0x11), (260, 0x12), (261, 0x13), (265, 0x80), (264, 0x81),
    (263, 0x82), (262, 0x83)]

/-- `tolower`. -/
def toLower (key : ℕ) : ℕ := if 0x41 ≤ key ∧ key ≤ 0x5A then key + 0x20 else key

/-- The `switch` of `vm_hw_keyboard_handle_key`: the keyboard, the states that are set, and the
index of the key. -/
def switchKey (hw : Keyboard) (key : ℕ) (state : Bool) : Keyboard × List ℕ × ℕ :=
  match specialKeys.lookup key with
  | some index => (hw.press index state, [index], index)
  | none =>
    if key = 341 then
      (press { hw with controlLeft := state } 0x91 (state || hw.controlRight), [0x91], 0x91)
    else if key = 345 then
      (press { hw with controlRight := state } 0x91 (hw.controlLeft || state), [0x91], 0x91)
    else if key = 340 then
      (press { hw with shiftLeft := state } 0x90 (state || hw.shiftRight), [0x90], 0x90)
    else if key = 344 then
      (press { hw with shiftRight := state } 0x90 (hw.shiftLeft || state), [0x90], 0x90)
    -- the radiation is switched
    else if key = 297 then (hw, [], 0)
    else
      let indices := [key, toLower key].filter (· < kbPressedCount)
      (indices.foldl (fun hw i => hw.press i state) hw, indices, key)

/-- `vm_hw_keyboard_handle_key`, for the keys that GLFW calls it with. -/
def handleKey (hw : Keyboard) (key : ℕ) (state : Bool) : Keyboard × List Access :=
  let (hw, indices, index) := hw.switchKey key state
  let accesses := indices.map (Access.mk .keyboardPressed)
  let r :=
    if state = true ∧ (index < 0x20 ∨ 0x7F < index) ∧ index < kbPressedCount then
      hw.appendToBuffer index
    else (hw, [])
  ({ r.1 with pendingInterrupt := r.1.pendingInterrupt || decide (r.1.interruptMessage ≠ 0) },
    accesses ++ r.2)

/-- `vm_hw_keyboard_interrupt`. -/
def interrupt (hw : Keyboard) (r : Registers) : Keyboard × Registers × List Access :=
  if r 0 = 0 then
    ({ hw with buffer := fun i => if i < kbBufferCount then 0 else hw.buffer i }, r,
      (List.range kbBufferCount).map (Access.mk .keyboardBuffer))
  else if r 0 = 1 then
    if hw.bufferIdxR = hw.bufferIdxW then (hw, Function.update r 2 0, [])
    else
      ({ hw with bufferIdxR := nextIdx hw.bufferIdxR },
        Function.update r 2 (hw.buffer hw.bufferIdxR), [⟨.keyboardBuffer, hw.bufferIdxR⟩])
  else if r 0 = 2 then
    if 0 < r 1 ∧ (r 1).toNat ≤ kbPressedCount then
      (hw, Function.update r 2 (if hw.pressed (r 1).toNat then 1 else 0),
        [⟨.keyboardPressed, (r 1).toNat⟩])
    else (hw, Function.update r 2 0, [])
  else if r 0 = 3 then ({ hw with interruptMessage := r 1 }, r, [])
  else (hw, r, [])

/-- `vm_hw_keyboard_cycle`. -/
def cycle (hw : Keyboard) : Keyboard := { hw with pendingInterrupt := false }

end Keyboard

/-! ### The vector display -/

/-- `struct sped3_hardware`, less the rotation, which is in floating-point numbers. -/
structure Sped3 where
  mem : Word := 0
  num : Word := 0
  windowClosed : Bool := false

namespace Sped3

/-- `vm_hw_sped3_interrupt`, where it maps memory. -/
def interrupt (hw : Sped3) (r : Registers) : Sped3 :=
  if r 0 = 1 then { hw with mem := r 3, num := r 4 } else hw

/-- `vm_hw_sped3_cycle`; nothing is drawn without a host. -/
def cycle (hw : Sped3) (hosted : Bool) : List Access :=
  if hw.windowClosed = true ∨ hosted = false then []
  else
    (List.range (min hw.num.toNat 128)).flatMap fun i =>
      [⟨.ram, hw.mem.toNat + i * 2⟩, ⟨.ram, hw.mem.toNat + i * 2 + 1⟩]

end Sped3

/-! ### The clock -/

/-- `struct clock_hardware`. -/
structure Clock where
  cyclesPerTick : BitVec 32 := 0
  clockTicks : Word := 0
  clockCycles : BitVec 32 := 0
  message : Word := 0
  /-- History: how often the clock has been set. -/
  enabled : ℕ := 0

namespace Clock

/-- `DCPU_TICKS_KHZ * 1000 * B`, which is an `int`: where that is too small, what is computed is
given. -/
def product (overflow : ℤ → ℤ) (b : Word) : ℤ :=
  if 100 * 1000 * (b.toNat : ℤ) ≤ 0x7FFFFFFF then 100 * 1000 * b.toNat
  else overflow (100 * 1000 * b.toNat)

/-- `vm_hw_clock_interrupt`. -/
def interrupt (overflow : ℤ → ℤ) (hw : Clock) (r : Registers) : Clock × Registers :=
  if r 0 = 0 then
    ({ hw with
        cyclesPerTick := BitVec.ofInt 32 ((product overflow (r 1)).tdiv 60)
        clockTicks := 0, clockCycles := 0, enabled := hw.enabled + 1 }, r)
  else if r 0 = 1 then (hw, Function.update r 2 hw.clockTicks)
  else if r 0 = 2 then ({ hw with message := r 1 }, r)
  else (hw, r)

/-- `vm_hw_clock_cycle`, and whether it raises an interrupt. -/
def cycle (hw : Clock) : Clock × Bool :=
  if hw.cyclesPerTick ≠ 0 then
    let hw := { hw with clockCycles := hw.clockCycles + 1 }
    if hw.cyclesPerTick ≤ hw.clockCycles then
      ({ hw with clockTicks := hw.clockTicks + 1, clockCycles := 0 }, hw.message ≠ 0)
    else (hw, false)
  else (hw, false)

end Clock

/-! ### All devices -/

/-- The devices of a machine. -/
structure Devices where
  m35fd : M35fd := {}
  lem1802 : Lem1802 := {}
  keyboard : Keyboard := {}
  sped3 : Sped3 := {}
  clock : Clock := {}
  /-- Whether the machine has a host to draw on. -/
  hosted : Bool := true

/-- What devices are called for. -/
inductive HwEvent
  | hwiM35fd (r : Registers)
  | hwiLem1802 (r : Registers)
  | hwiKeyboard (r : Registers)
  | hwiSped3 (r : Registers)
  | tickM35fd
  | tickLem1802 (ram : Word → Word)
  | tickSped3
  | postCycle
  | write (pos : Word)
  | char (c : ℤ)
  | key (key : ℕ) (state : Bool)
  | closeLem1802
  | closeSped3

/-- What devices do, with their accesses; `fuel` is for loops without end. -/
def Devices.step (d : Devices) (e : HwEvent) (fuel : ℕ) : Devices × List Access :=
  match e with
  | .hwiM35fd r => ({ d with m35fd := (d.m35fd.interrupt r).1 }, [])
  | .hwiLem1802 r =>
    ({ d with lem1802 := (d.lem1802.interrupt r).1 }, (d.lem1802.interrupt r).2)
  | .hwiKeyboard r =>
    ({ d with keyboard := (d.keyboard.interrupt r).1 }, (d.keyboard.interrupt r).2.2)
  | .hwiSped3 r => ({ d with sped3 := d.sped3.interrupt r }, [])
  | .tickM35fd => ({ d with m35fd := d.m35fd.cycle.1 }, d.m35fd.cycle.2)
  | .tickLem1802 ram =>
    ({ d with lem1802 := (d.lem1802.cycle ram fuel).1 }, (d.lem1802.cycle ram fuel).2)
  | .tickSped3 => (d, d.sped3.cycle d.hosted)
  | .postCycle => ({ d with keyboard := d.keyboard.cycle }, [])
  | .write pos => ({ d with lem1802 := d.lem1802.write pos }, [])
  | .char c => ({ d with keyboard := (d.keyboard.handleChar c).1 }, (d.keyboard.handleChar c).2)
  | .key key state =>
    ({ d with keyboard := (d.keyboard.handleKey key state).1 },
      (d.keyboard.handleKey key state).2)
  | .closeLem1802 => ({ d with lem1802 := { d.lem1802 with windowClosed := true } }, [])
  | .closeSped3 => ({ d with sped3 := { d.sped3 with windowClosed := true } }, [])

/-- The devices as they are initialized, with a disk in the drive or without. -/
def Devices.init (disk hosted : Bool) : Devices where
  m35fd := { disk := disk, state := if disk then M35fd.ready else M35fd.noMedia }
  hosted := hosted

end DcpuToolchain
