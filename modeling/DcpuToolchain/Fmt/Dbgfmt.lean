import DcpuToolchain.Lib.Codec
import Mathlib.Data.List.TakeWhile

/-!
# Files of debugging symbols

A file of symbols (`ddata.c`) is a magic number, the number of symbols, and the symbols, each
with the length of its payload and its type. The length has 16 bits, and the reader finds the
length of the string of a payload by taking the size of the other fields off it.

What is written is read back (`DcpuToolchain.dbgfmtRead_dbgfmtWrite`), in either byte order:
both directions use that of the machine.
-/

namespace DcpuToolchain

open Codec

/-! ### Strings and lists -/

/-- The bytes of a string. -/
abbrev CString := List UInt8

/-- What C takes of bytes as a string. -/
def cText (s : CString) : CString := s.takeWhile (· ≠ 0)

/-- `strlen`. -/
def strlen (s : CString) : ℕ := (cText s).length

/-- `strcpy`: the string with its terminator. -/
def strcpy (s : CString) : List UInt8 := cText s ++ [0]

/-- `bfromcstr` of a buffer; it has to have a terminator. -/
def bfromcstr (storage : List UInt8) : Option CString :=
  if 0 ∈ storage then some (cText storage) else none

/-- `list_t`, which counts its elements in an `unsigned int`. -/
structure ListT (α : Type) where
  elements : List α
  numels_lt : elements.length < 2 ^ 32

/-! ### Symbols -/

/-- `struct dbg_sym`, with its payload. -/
inductive Symbol
  | line (path : CString) (lineno address : UInt16)
  | string (data : CString) (address : UInt16)
  | label (label : CString) (address : UInt16)
  deriving DecidableEq, Repr

namespace Symbol

/-- `DBGFMT_SYMBOL_...`. -/
def type : Symbol → ℕ
  | line _ _ _ => 1
  | string _ _ => 2
  | label _ _ => 3

/-- The string of a symbol. -/
def text : Symbol → CString
  | line path _ _ => path
  | string data _ => data
  | label name _ => name

end Symbol

/-- `DBGFMT_MAGIC`. -/
def dbgfmtMagic : ℕ := 0xC0DEBEAF

/-! ### Writing -/

/-- What the serializers have in common: the string with its terminator, the other fields,
and how many bytes that is as a `uint16_t`. -/
def serializePayload (text : CString) (fields : List UInt8) : List UInt8 × UInt16 :=
  (strcpy text ++ fields, UInt16.ofNat (strlen text + 1 + fields.length))

/-- `dbgfmt_serialize_payload_line`. -/
def dbgfmtSerializePayloadLine (o : Endian) (path : CString) (lineno address : UInt16) :
    List UInt8 × UInt16 :=
  serializePayload path (put o 2 lineno.toNat ++ put o 2 address.toNat)

/-- `dbgfmt_serialize_payload_string`. -/
def dbgfmtSerializePayloadString (o : Endian) (data : CString) (address : UInt16) :
    List UInt8 × UInt16 :=
  serializePayload data (put o 2 address.toNat)

/-- `dbgfmt_serialize_payload_label`. -/
def dbgfmtSerializePayloadLabel (o : Endian) (label : CString) (address : UInt16) :
    List UInt8 × UInt16 :=
  serializePayload label (put o 2 address.toNat)

/-- The payload of a symbol. -/
def Symbol.serialize (o : Endian) : Symbol → List UInt8 × UInt16
  | line path lineno address => dbgfmtSerializePayloadLine o path lineno address
  | string data address => dbgfmtSerializePayloadString o data address
  | label name address => dbgfmtSerializePayloadLabel o name address

/-- A turn of the loop of `dbgfmt_write`. -/
def writeSymbol (o : Endian) (s : Symbol) : List UInt8 :=
  let (bytestream, rawlength) := s.serialize o
  put o 2 rawlength.toNat ++ (put o 1 s.type ++ bytestream.take rawlength.toNat)

/-- `dbgfmt_write`. -/
def dbgfmtWrite (o : Endian) (symbols : ListT Symbol) : List UInt8 :=
  let total := UInt32.ofNat symbols.elements.length
  put o 4 dbgfmtMagic ++ (put o 4 total.toNat ++
    (symbols.elements.take total.toNat).flatMap (writeSymbol o))

/-! ### Reading -/

/-- What the deserializers have in common: the string of a payload is what is left of its
length without the other fields. -/
def deserializeString (fields length : ℕ) : Reader UInt8 CString :=
  if fields ≤ length then take (length - fields) >>= fun storage => StateT.lift (bfromcstr storage)
  else failure

/-- `dbgfmt_deserialize_symbol_line`. -/
def dbgfmtDeserializeSymbolLine (o : Endian) (length : ℕ) : Reader UInt8 Symbol := do
  let path ← deserializeString (2 * 2) length
  let lineno ← number o 2
  let address ← number o 2
  pure (.line path (UInt16.ofNat lineno) (UInt16.ofNat address))

/-- `dbgfmt_deserialize_symbol_string`. -/
def dbgfmtDeserializeSymbolString (o : Endian) (length : ℕ) : Reader UInt8 Symbol := do
  let data ← deserializeString (1 * 2) length
  let address ← number o 2
  pure (.string data (UInt16.ofNat address))

/-- `dbgfmt_deserialize_symbol_label`. -/
def dbgfmtDeserializeSymbolLabel (o : Endian) (length : ℕ) : Reader UInt8 Symbol := do
  let label ← deserializeString (1 * 2) length
  let address ← number o 2
  pure (.label label (UInt16.ofNat address))

/-- The deserializer of a type; the last case is an assertion. -/
def deserialize (o : Endian) (type length : ℕ) : Reader UInt8 Symbol :=
  if type = 1 then dbgfmtDeserializeSymbolLine o length
  else if type = 2 then dbgfmtDeserializeSymbolString o length
  else if type = 3 then dbgfmtDeserializeSymbolLabel o length
  else failure

/-- A turn of the loop of `dbgfmt_read`. -/
def readSymbol (o : Endian) : Reader UInt8 Symbol := do
  let length ← number o 2
  let type ← number o 1
  let payload ← take length
  StateT.lift (((deserialize o type length).run payload).map Prod.fst)

/-- `dbgfmt_read` up to the end of the last symbol. It does not look at the magic number. -/
def readSymbols (o : Endian) : Reader UInt8 (List Symbol) := do
  let _magic ← number o 4
  let numSymbols ← number o 4
  times (readSymbol o) numSymbols

/-- `dbgfmt_read` of a file that is there. -/
def dbgfmtRead (o : Endian) (file : List UInt8) : Option (List Symbol) :=
  ((readSymbols o).run file).map Prod.fst

/-! ### What is written is read -/

theorem cText_of_notMem {s : CString} (h : (0 : UInt8) ∉ s) : cText s = s := by
  rw [cText, List.takeWhile_eq_self_iff]
  rintro c hc
  rw [decide_eq_true_iff]
  rintro rfl
  exact h hc

theorem bfromcstr_strcpy {s : CString} (h : (0 : UInt8) ∉ s) : bfromcstr (strcpy s) = some s := by
  have hall : ∀ c ∈ s, decide (c ≠ 0) = true := by
    rintro c hc
    rw [decide_eq_true_iff]
    rintro rfl
    exact h hc
  rw [bfromcstr, strcpy, cText_of_notMem h, if_pos (by simp), cText,
    List.takeWhile_append_of_pos hall]
  simp

/-- A value that is computed. -/
theorem reads_lift {α : Type} {x : Option α} {a : α} (h : x = some a) :
    Reads (β := UInt8) (StateT.lift x) [] a := by
  subst h
  exact fun _ => rfl

section Payload

variable (o : Endian) {text fields : List UInt8}

/-- The string of a payload is read back. -/
theorem reads_deserializeString (h : (0 : UInt8) ∉ text) {n : ℕ} (hn : fields.length = n) :
    Reads (deserializeString n (strlen text + 1 + fields.length)) (strcpy text) text := by
  have hlength : strlen text + 1 + fields.length - n = (strcpy text).length := by
    rw [hn, Nat.add_sub_cancel, strcpy, List.length_append]
    rfl
  have hread :=
    (reads_take (strcpy text)).bind (f := fun storage => StateT.lift (bfromcstr storage))
    (reads_lift (bfromcstr_strcpy h))
  rw [deserializeString, if_pos (by omega), hlength]
  rwa [List.append_nil] at hread

theorem reads_uint16 (w : UInt16) : Reads (number o 2) (put o 2 w.toNat) w.toNat :=
  reads_number o w.toNat_lt

theorem serializePayload_length (text : CString) (fields : List UInt8) :
    (serializePayload text fields).1.length = strlen text + 1 + fields.length := by
  rw [serializePayload, strcpy, List.length_append, List.length_append]
  rfl

/-- The last field of a payload is read back. -/
theorem reads_address (address : UInt16) (f : UInt16 → Symbol) :
    Reads (number o 2 >>= fun n => pure (f (UInt16.ofNat n))) (put o 2 address.toNat)
      (f address) := by
  refine (reads_uint16 o address).bind_last ?_
  rw [UInt16.ofNat_toNat]
  exact .pure _

/-- **A payload is read back** as its symbol. -/
theorem reads_deserialize (s : Symbol) (h : (0 : UInt8) ∉ s.text) :
    Reads (deserialize o s.type (s.serialize o).1.length) (s.serialize o).1 s := by
  cases s with
  | line path lineno address =>
    have hlength := serializePayload_length path (put o 2 lineno.toNat ++ put o 2 address.toNat)
    have hfields := (reads_uint16 o lineno).bind
      (f := fun n => number o 2 >>= fun m =>
        pure (Symbol.line path (UInt16.ofNat n) (UInt16.ofNat m)))
      (reads_address o address (.line path (UInt16.ofNat lineno.toNat)))
    rw [UInt16.ofNat_toNat] at hfields
    exact hlength ▸ (reads_deserializeString h (by simp)).bind hfields
  | string data address =>
    have hlength := serializePayload_length data (put o 2 address.toNat)
    exact hlength ▸ (reads_deserializeString h (by simp)).bind
      (reads_address o address (.string data))
  | label name address =>
    have hlength := serializePayload_length name (put o 2 address.toNat)
    exact hlength ▸ (reads_deserializeString h (by simp)).bind
      (reads_address o address (.label name))

/-- The length that is written is that of the payload, if it fits. -/
theorem serialize_length (s : Symbol) (hfits : (s.serialize o).1.length < 2 ^ 16) :
    (s.serialize o).2.toNat = (s.serialize o).1.length := by
  have hlength : (s.serialize o).2 = UInt16.ofNat (s.serialize o).1.length := by
    cases s with
    | line path lineno address => exact congrArg UInt16.ofNat (serializePayload_length _ _).symm
    | string data address => exact congrArg UInt16.ofNat (serializePayload_length _ _).symm
    | label name address => exact congrArg UInt16.ofNat (serializePayload_length _ _).symm
  rw [hlength, UInt16.toNat_ofNat_of_lt' hfits]

/-- **A record is read back**, if the length of its payload fits. -/
theorem reads_symbol (s : Symbol) (h : (0 : UInt8) ∉ s.text)
    (hfits : (s.serialize o).1.length < 2 ^ 16) :
    Reads (readSymbol o) (writeSymbol o s) s := by
  have hrawlength := serialize_length o s hfits
  have htype : s.type < 256 ^ 1 := by cases s <;> simp [Symbol.type]
  have hrun : ((deserialize o s.type (s.serialize o).1.length).run (s.serialize o).1).map
      Prod.fst = some s := by
    have hread := reads_deserialize o s h []
    rw [List.append_nil] at hread
    rw [hread, Option.map_some]
  have hpayload := (reads_take (s.serialize o).1).bind_last
    (f := fun payload => StateT.lift
      (((deserialize o s.type (s.serialize o).1.length).run payload).map Prod.fst))
    (reads_lift hrun)
  rw [writeSymbol]
  dsimp only
  rw [hrawlength, List.take_length]
  have hlength : (s.serialize o).1.length < 256 ^ 2 := by omega
  exact (reads_number o hlength).bind ((reads_number o htype).bind hpayload)

end Payload

/-- **What `dbgfmt_write` writes `dbgfmt_read` reads**: the same symbols in the same order, if
their strings contain no NUL and their payloads have lengths that fit in 16 bits. -/
theorem dbgfmtRead_dbgfmtWrite (o : Endian) (symbols : ListT Symbol)
    (hstrings : ∀ s ∈ symbols.elements, (0 : UInt8) ∉ s.text)
    (hfits : ∀ s ∈ symbols.elements, (s.serialize o).1.length < 2 ^ 16) :
    dbgfmtRead o (dbgfmtWrite o symbols) = some symbols.elements := by
  have htotal : (UInt32.ofNat symbols.elements.length).toNat = symbols.elements.length :=
    UInt32.toNat_ofNat_of_lt' symbols.numels_lt
  have hread : Reads (readSymbols o) (dbgfmtWrite o symbols) symbols.elements := by
    rw [dbgfmtWrite, htotal, List.take_length]
    have hmagic : dbgfmtMagic < 256 ^ 4 := by decide
    have hcount : symbols.elements.length < 256 ^ 4 := symbols.numels_lt
    refine (reads_number o hmagic).bind ((reads_number o hcount).bind ?_)
    exact reads_times fun s hs => reads_symbol o s (hstrings s hs) (hfits s hs)
  have hrun := hread []
  rw [List.append_nil] at hrun
  rw [dbgfmtRead, hrun, Option.map_some]

/-- A line, a string and a label. -/
theorem dbgfmtRead_dbgfmtWrite_three :
    dbgfmtRead .little (dbgfmtWrite .little ⟨[.line [97, 46, 115] 3 7, .string [] 0xffff,
      .label [108] 0x1234], by decide⟩) =
      some [.line [97, 46, 115] 3 7, .string [] 0xffff, .label [108] 0x1234] :=
  dbgfmtRead_dbgfmtWrite .little _ (by decide) (by decide)

end DcpuToolchain
