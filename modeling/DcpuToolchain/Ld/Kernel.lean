import DcpuToolchain.Ld.Bins
import DcpuToolchain.Ld.Call

/-!
# Generating the calls

`bins_resolve_kernel` generates the code of every `.CALL` of the flattened bin, where the
policies of the kernel say how (`ldcall.c`): a jump through the jump table of the kernel, or an
interrupt by one of three conventions. The code is written to a bin of its own and moved into
the flattened bin at the address of the call.
-/

namespace DcpuToolchain

open Marks

/-! ### Policies -/

/-- What `policies_get_setting` finds; `none` where the policies have no settings. -/
abbrev Policies := Option (Bstring → Option Bstring)

/-- How `bins_resolve_kernel` stops short of its end. -/
inductive CallError
  /-- `ERR_CALL_NO_SETTINGS`. -/
  | callNoSettings
  /-- `ERR_CALL_CONVENTION_AMBIGIOUS`. -/
  | callConventionAmbigious
  /-- `ERR_CALL_CONVENTION_MISSING`. -/
  | callConventionMissing
  /-- `ERR_CALL_CONVENTION_UNKNOWN`. -/
  | callConventionUnknown
  /-- `ERR_CALL_MISSING_INTERRUPT_PARAMETERS`. -/
  | callMissingInterruptParameters
  /-- The loop that writes pushes goes on for ever. -/
  | endless
  /-- An error of the bins. -/
  | bins (error : LdError)
  deriving DecidableEq, Repr

/-- The value of a digit, in whatever base. -/
def digitValue (c : Char) : ℕ :=
  if '0' ≤ c ∧ c ≤ '9' then c.toNat - '0'.toNat
  else if 'a' ≤ c ∧ c ≤ 'z' then c.toNat - 'a'.toNat + 10
  else if 'A' ≤ c ∧ c ≤ 'Z' then c.toNat - 'A'.toNat + 10
  else 36

/-- The number at the beginning of a text. -/
def digitsValue (base : ℕ) : (value : ℕ) → Bstring → ℕ
  | value, [] => value
  | value, c :: text =>
    if digitValue c < base then digitsValue base (value * base + digitValue c) text else value

/-- `strtoul` on numbers without a sign, cut to a word; a number that does not fit is the
largest one. -/
def strtoul (base : ℕ) (text : Bstring) : Word :=
  let text := text.dropWhile fun c => c = ' ' || ('\t' ≤ c && c ≤ '\r')
  let text := if base = 16 ∧ text.take 2 = ['0', 'x'] then text.drop 2 else text
  BitVec.ofNat 16 (min (digitsValue base 0 text) (2 ^ 64 - 1))

/-- The number in a setting. -/
def settingValue (text : Bstring) : Word :=
  if text[1]? = some 'x' then strtoul 16 text else strtoul 10 text

/-- The setting of an interrupt for a call. -/
def interruptSetting (kind : String) (label : Bstring) : Bstring :=
  kind.toList ++ '(' :: label ++ [')']

/-- The setting `interrupt-call`, in whatever case. -/
def callConvention (text : Bstring) : Option CallConvention :=
  let text := text.map Char.toLower
  if text = "stack-call".toList then some .stackCall
  else if text = "register-call".toList then some .registerCall
  else if text = "register-direct".toList then some .registerDirect
  else none

/-! ### The code -/

/-- The words of `generate_jump`; where the jump table has no such entry they jump through
address zero. -/
def generateJump (bin : LdBin) (call : LconvEntry) : List Word :=
  [instructionCreate 0x00 0x01 0x1E,
    BitVec.ofNat 16 (((bin.tables .jump).find? (·.label = call.label)).elim 0 LconvEntry.address)]

/-- The words of `ldcall_generate`. -/
def callCode (policies : Policies) (bin : LdBin) (call : LconvEntry) :
    Except CallError (List Word) :=
  match policies with
  | none => .error .callNoSettings
  | some setting =>
    match setting "jumplist".toList, setting "interrupt-call".toList with
    | some _, some _ => .error .callConventionAmbigious
    | none, none => .error .callConventionMissing
    | some _, none => .ok (generateJump bin call)
    | none, some text =>
      match callConvention text with
      | none => .error .callConventionUnknown
      | some conv =>
        match setting (interruptSetting "interrupt-call" call.label),
          setting (interruptSetting "interrupt-size" call.label) with
        | some number, some size =>
          match callWords (settingValue number) (settingValue size) conv with
          | none => .error .endless
          | some words => .ok words
        | _, _ => .error .callMissingInterruptParameters

/-- The name of the bins that code is written to. -/
def tempName : Bstring := "<temp>".toList

/-- A bin of words and nothing else. -/
def tempBin (words : List Word) : LdBin where
  name := tempName
  words := words
  tables _ := []
  symbols := []

/-- `ldcall_generate`; `temp` is where the temporary bin is created. -/
def ldcallGenerate (ls : ListSort) (policies : Policies) (all : List BinPtr) (bin temp : BinPtr)
    (call : LconvEntry) (h : Heap) : Except CallError Heap := do
  let words ← callCode policies (h bin) call
  let h := Function.update h temp (tempBin words)
  (binMove ls false all bin temp call.address 0 words.length h).mapError .bins

/-- The loop of `bins_resolve_kernel`, over the positions of the call table: generating one
call changes the addresses of the others. -/
def resolveCalls (ls : ListSort) (policies : Policies) (bin temp : BinPtr) :
    List ℕ → Heap → Except CallError Heap
  | [], h => .ok h
  | i :: is, h =>
    match ((h bin).tables .call)[i]? with
    | none => .ok h
    | some call => do
      let h ← ldcallGenerate ls policies [bin] bin temp call h
      resolveCalls ls policies bin temp is h

/-- `bins_resolve_kernel`. -/
def binsResolveKernel (ls : ListSort) (policies : Policies) (s : LdBins) :
    Except CallError LdBins :=
  match s.bins with
  | [bin] => do
    let heap ← resolveCalls ls policies bin s.next (List.range ((s.heap bin).tables .call).length)
      s.heap
    .ok ⟨heap, [bin], s.next⟩
  | _ => .error (.bins .assertion)

end DcpuToolchain
