import DcpuToolchain.Isa
import DcpuToolchain.Lib.Marks
import Mathlib.Logic.Function.Basic

/-!
# Linker bins

The linker keeps code in bins (`ldbin.c`): words, and beside them one table for each
kind of linker information, whose entries carry the address of the word they are about.
Words are moved from one bin into another by `DcpuToolchain.binInsert` and
`DcpuToolchain.binRemove`, which keep the tables in step with the words.

An adjustment entry says that the word it marks is an address, and names the bin it is
an address of. Moving words therefore also changes the words that refer to them, in
every bin of the global list; the walk over one bin is `DcpuToolchain.adjust`, and what
it does at one entry is `DcpuToolchain.repointInserted` after an insertion and
`DcpuToolchain.repointRemoved` after a removal.

Bins are reached through pointers, since the same bin is a target and a member of the
global list at once. `list_sort` picks its pivots at random, so it is any
`Marks.ListSort`.
-/

namespace DcpuToolchain

open Marks

/-! ### The data -/

/-- A string of the source. -/
abbrev Bstring := List Char

/-- The comparison of strings decides their equality. -/
instance lawfulBEqBstring : LawfulBEq Bstring := List.instLawfulBEq

/-- Truncation to `uint16_t`. -/
def u16 (n : ℕ) : ℕ := n % 0x10000

theorem u16_of_lt {n : ℕ} (h : n < 0x10000) : u16 n = n := Nat.mod_eq_of_lt h

/-- The tables of `struct ldbin`. -/
inductive Table
  | provided | required | adjustment | section | output | jump | optional | call
  deriving DecidableEq, Repr

/-- `struct lconv_entry`. Only an adjustment has a `NULL` label, and it is never looked
up by it, so the label is then empty; only an adjustment has a bin. -/
structure LconvEntry where
  label : Bstring
  bin : Option Bstring
  address : ℕ
  deriving DecidableEq, Repr

instance : Addressed LconvEntry where
  address := LconvEntry.address
  withAddress e a := ⟨e.label, e.bin, a⟩
  address_withAddress _ _ := rfl
  withAddress_withAddress _ _ _ := rfl
  withAddress_address _ := rfl

/-- The payload of a debugging symbol, less its address. -/
inductive DbgPayload
  | line (path : Bstring) (lineno : ℕ)
  | string (data : Bstring)
  | label (label : Bstring)
  deriving DecidableEq, Repr

/-- `struct dbg_sym`. -/
structure DbgSym where
  payload : DbgPayload
  address : ℕ
  deriving DecidableEq, Repr

/-- `dbgfmt_get_symbol_address` and `dbgfmt_update_symbol`. -/
instance : Addressed DbgSym where
  address := DbgSym.address
  withAddress s a := ⟨s.payload, a⟩
  address_withAddress _ _ := rfl
  withAddress_withAddress _ _ _ := rfl
  withAddress_address _ := rfl

/-- `struct ldbin`. -/
structure LdBin where
  name : Bstring
  words : List Word
  tables : Table → List LconvEntry
  symbols : List DbgSym

/-- A pointer to a bin. -/
abbrev BinPtr := ℕ

/-- The bins in memory. -/
abbrev Heap := BinPtr → LdBin

/-- How the linker stops short of its end. -/
inductive LdError
  /-- An `assert` failed. -/
  | assertion
  /-- `ERR_BUG_191_WORKAROUND`: an adjustment past the end of its bin. -/
  | bug191Workaround
  /-- `ERR_LABEL_NOT_FOUND`. -/
  | labelNotFound
  /-- `ERR_LABEL_AMBIGIOUS_PROVIDED_JUMP`. -/
  | labelAmbigiousProvidedJump
  /-- A `NULL` that `list_get_at` returned is dereferenced. -/
  | nullPointer
  deriving DecidableEq, Repr

/-- `biseq`, which is `BSTR_ERR`, a true value, on `NULL`. -/
def biseq (a : Option Bstring) (b : Bstring) : Bool :=
  match a with
  | none => true
  | some a => a = b

@[simp] theorem biseq_some {a b : Bstring} : biseq (some a) b = decide (a = b) := rfl

/-- `bin_create`. -/
def binCreate (name : Bstring) : LdBin where
  name := name
  words := []
  tables _ := []
  symbols := []

/-! ### What an insertion does to a table -/

section Insert

variable {E : Type} [Addressed E]

/-- Whether `bin_info_insert` copies an entry: it lies in the inserted range, or at the
end of the source bin when the range reaches that end. -/
def copied (fromSize offset count address : ℕ) : Bool :=
  offset ≤ address ∧
    (address < offset + count ∨ (fromSize ≤ address ∧ fromSize ≤ offset + count + 1))

/-- The entries of the target bin from the insertion point on are shifted up. -/
def shiftUp (atPos count : ℕ) (e : E) : E :=
  if atPos ≤ address e then withAddress e (u16 (address e + count)) else e

/-- The copy of an entry. -/
def copyEntry (atPos offset : ℕ) (e : E) : E :=
  withAddress e (u16 (atPos + (address e - offset)))

/-- The shift and the copies of `bin_info_insert` and `bin_info_insert_symbols`. The
output table is not shifted; `list_append` fails on a list that is being iterated, and
then nothing is copied. -/
def insertEntries (isOutput iterated : Bool) (fromSize atPos offset count : ℕ)
    (tolist fromlist : List E) : List E :=
  (if isOutput then tolist else tolist.map (shiftUp atPos count)) ++
    if iterated then []
    else (fromlist.filter (copied fromSize offset count <| address ·)).map
      (copyEntry atPos offset)

end Insert

/-! ### What a removal does to a table -/

/-- The scan of `bin_info_remove` over a sorted table, from an iterator position and the
two ends of the range to delete (`-1` where not yet found). It returns the entries with
their new addresses, the ends and the final iterator position. -/
def removeScan (isAdjustment : Bool) (offset count : ℕ) :
    ℤ → ℤ → ℤ → List LconvEntry → List LconvEntry × ℤ × ℤ × ℤ
  | iterPos, delStart, delEnd, [] => ([], delStart, delEnd, iterPos)
  | iterPos, delStart, delEnd, e :: es =>
    -- `list_iterator_next` has moved the iterator past the entry
    let iterPos := iterPos + 1
    if e.address < offset then
      let r := removeScan isAdjustment offset count iterPos delStart delEnd es
      (e :: r.1, r.2)
    else if e.address < offset + count then
      let delStart := if delStart = -1 then iterPos - 1 else delStart
      let r := removeScan isAdjustment offset count iterPos delStart delEnd es
      (e :: r.1, r.2)
    else
      -- an adjustment is not lowered here but in the walk over all bins
      let e := if isAdjustment then e else ⟨e.label, e.bin, e.address - count⟩
      let delEnd := if delEnd = -1 then iterPos - 2 else delEnd
      let r := removeScan isAdjustment offset count iterPos delStart delEnd es
      (e :: r.1, r.2)

/-- `list_delete_range`. -/
def listDeleteRange {E : Type} (l : List E) (posStart posEnd : ℕ) : List E :=
  l.take posStart ++ l.drop (posEnd + 1)

/-- `bin_info_remove`, less its walk over all bins. -/
def binInfoRemove (ls : ListSort) (isAdjustment : Bool) (offset count : ℕ)
    (list : List LconvEntry) : List LconvEntry :=
  let (list, delStart, delEnd, iterPos) :=
    removeScan isAdjustment offset count 0 (-1) (-1) (ls.up list)
  let delEnd := if delEnd = -1 then iterPos - 1 else delEnd
  if delEnd ≠ -1 ∧ delStart ≠ -1 ∧ delStart ≤ delEnd then
    listDeleteRange list delStart.toNat delEnd.toNat
  else list

/-- The loop of `bin_info_remove_symbols` over the sorted symbols. -/
def removeSymbols (offset count : ℕ) : List DbgSym → List DbgSym
  | [] => []
  | sym :: syms =>
    if sym.address < offset then sym :: removeSymbols offset count syms
    else if sym.address < offset + count then removeSymbols offset count syms
    else ⟨sym.payload, sym.address - count⟩ :: removeSymbols offset count syms

/-! ### The walk over the adjustments -/

/-- A walk over the adjustments of one bin: an entry is first changed by `pre`, then the
word it marks is fetched, then both are changed by `post`. -/
def adjust (pre : LconvEntry → LconvEntry) (post : LconvEntry → Word → LconvEntry × Word)
    (missing : LdError) :
    List LconvEntry → List Word → Except LdError (List LconvEntry × List Word)
  | [], words => .ok ([], words)
  | e :: es, words =>
    match words[(pre e).address]? with
    | none => .error missing
    | some word => do
      let r := post (pre e) word
      let (es', words') ← adjust pre post missing es (words.set (pre e).address r.2)
      .ok (r.1 :: es', words')

/-- What `bin_info_insert` does at one adjustment: a word that points into the inserted
range of the source bin now points into the target bin, and a word that points behind
the insertion point of the target bin is shifted up. -/
def repointInserted (toName fromName : Bstring) (atPos offset count : ℕ) (e : LconvEntry)
    (word : Word) : LconvEntry × Word :=
  if offset ≤ word.toNat ∧ word.toNat < offset + count ∧ biseq e.bin fromName then
    (⟨e.label, some toName, e.address⟩, BitVec.ofNat 16 (word.toNat - offset + atPos))
  else if atPos ≤ word.toNat ∧ biseq e.bin toName then
    (e, BitVec.ofNat 16 (word.toNat + count))
  else (e, word)

/-- What `bin_info_remove` first does at one adjustment: an entry of the bin that lost
words is lowered, where the bin is told by the entry's name. -/
def lowerRemoved (name : Bstring) (offset count : ℕ) (e : LconvEntry) : LconvEntry :=
  if offset + count ≤ e.address ∧ biseq e.bin name then ⟨e.label, e.bin, e.address - count⟩ else e

/-- What `bin_info_remove` then does at one adjustment: a word that points behind the
removed range is lowered. -/
def repointRemoved (name : Bstring) (offset count : ℕ) (e : LconvEntry) (word : Word) :
    LconvEntry × Word :=
  if offset + count ≤ word.toNat ∧ biseq e.bin name then
    (e, BitVec.ofNat 16 (word.toNat - count))
  else (e, word)

namespace LdBin

/-- A bin with another adjustment table and other words. -/
def setAdjusted (b : LdBin) (r : List LconvEntry × List Word) : LdBin where
  name := b.name
  words := r.2
  tables t := if t = .adjustment then r.1 else b.tables t
  symbols := b.symbols

/-- The walk over the adjustments of a bin. -/
def adjust (pre : LconvEntry → LconvEntry) (post : LconvEntry → Word → LconvEntry × Word)
    (missing : LdError) (b : LdBin) : Except LdError LdBin :=
  b.setAdjusted <$> DcpuToolchain.adjust pre post missing (b.tables .adjustment) b.words

end LdBin

/-- One walk over every bin of a list. -/
def adjustBins (f : LdBin → Except LdError LdBin) : List BinPtr → Heap → Except LdError Heap
  | [], h => .ok h
  | p :: ps, h => do
    let b ← f (h p)
    adjustBins f ps (Function.update h p b)

/-! ### Moving words -/

/-- The source bin of an insertion: `bin_info_insert` sorts its tables, except the
sections. -/
def LdBin.sortTables (ls : ListSort) (b : LdBin) : LdBin where
  name := b.name
  words := b.words
  tables t := if t = .section then b.tables t else ls.up (b.tables t)
  symbols := b.symbols

/-- The target bin of an insertion, before the walk over the adjustments. -/
def LdBin.insert (iterated : Bool) (b src : LdBin) (atPos offset count : ℕ) : LdBin where
  name := b.name
  words := b.words.take atPos ++ (src.words.drop offset).take count ++ b.words.drop atPos
  tables t :=
    if t = .section then b.tables t
    else insertEntries (t = .output) (t = .output ∧ iterated) src.words.length atPos offset count
      (b.tables t) (src.tables t)
  symbols := insertEntries false false src.words.length atPos offset count b.symbols src.symbols

/-- `bin_insert`; `iterated` says that the output table of the target is being
iterated. -/
def binInsert (ls : ListSort) (iterated : Bool) (all : List BinPtr) (toBin fromBin : BinPtr)
    (atPos offset count : ℕ) (h : Heap) : Except LdError Heap :=
  if (h toBin).words.length < atPos ∨ (h fromBin).words.length < offset + count then
    .error .assertion
  else
    let h := Function.update h fromBin ((h fromBin).sortTables ls)
    let h := Function.update h toBin ((h toBin).insert iterated (h fromBin) atPos offset count)
    let repoint := LdBin.adjust id
      (repointInserted (h toBin).name (h fromBin).name atPos offset count) .assertion
    -- the target is skipped in the loop and walked over after it
    adjustBins repoint (all.filter (· ≠ toBin) ++ [toBin]) h

/-- A bin after its words and entries were removed, before the walk over the
adjustments. -/
def LdBin.remove (ls : ListSort) (b : LdBin) (offset count : ℕ) : LdBin where
  name := b.name
  words := b.words.take offset ++ b.words.drop (offset + count)
  tables t :=
    if t = .section then b.tables t
    else binInfoRemove ls (t = .adjustment) offset count (b.tables t)
  symbols := removeSymbols offset count (ls.up b.symbols)

/-- `bin_remove`. -/
def binRemove (ls : ListSort) (all : List BinPtr) (bin : BinPtr) (offset count : ℕ) (h : Heap) :
    Except LdError Heap :=
  if (h bin).words.length < offset + count then .error .assertion
  else
    let h := Function.update h bin ((h bin).remove ls offset count)
    let repoint := LdBin.adjust (lowerRemoved (h bin).name offset count)
      (repointRemoved (h bin).name offset count) .bug191Workaround
    adjustBins repoint all h

/-- `bin_move`. -/
def binMove (ls : ListSort) (iterated : Bool) (all : List BinPtr) (toBin fromBin : BinPtr)
    (atPos offset count : ℕ) (h : Heap) : Except LdError Heap := do
  let h ← binInsert ls iterated all toBin fromBin atPos offset count h
  binRemove ls all fromBin offset count h

end DcpuToolchain
