import DcpuToolchain.Ld.Bin

/-!
# Sections and flattening

The link pipeline of `ldbins.c` up to the flattened bin: `bins_associate` names the bin
every adjustment is about, `bins_sectionize` cuts the sections out of the file bins, and
`bins_flatten` strings together what is left and inserts the sections at the outputs.

The loops over lists that the loop bodies do not change are folds. `bins_sectionize`
computes in `int`; a negative length or index becomes a huge `size_t` and fails the
assertions of `bin_insert`.
-/

namespace DcpuToolchain

open Marks

/-- The global `ldbins`, the memory its pointers point into, and the address of the next
bin to be created. -/
structure LdBins where
  heap : Heap
  bins : List BinPtr
  next : BinPtr

/-- What one `bins_load` for each file, in order, leaves behind. -/
def binsLoad (files : List LdBin) : LdBins where
  heap p := files.getD p (binCreate [])
  bins := List.range files.length
  next := files.length

/-- Every adjustment of a bin is about the bin itself. -/
def LdBin.associate (b : LdBin) : LdBin where
  name := b.name
  words := b.words
  tables t :=
    if t = .adjustment then (b.tables t).map fun e => ⟨e.label, some b.name, e.address⟩
    else b.tables t
  symbols := b.symbols

/-- `bins_associate`. -/
def binsAssociate (s : LdBins) : LdBins where
  heap p := if p ∈ s.bins then (s.heap p).associate else s.heap p
  bins := s.bins
  next := s.next

/-- `bin_print` on each bin of a list; all that matters is its assertion that no
adjustment lies past the end of its bin. -/
def binsPrint (heap : Heap) (bins : List BinPtr) : Except LdError Unit :=
  if ∀ p ∈ bins, ∀ e ∈ (heap p).tables .adjustment, e.address < (heap p).words.length then .ok ()
  else .error .assertion

/-- `list_seek` with `bin_seeker`. -/
def binSeek (heap : Heap) (bins : List BinPtr) (name : Bstring) : Option BinPtr :=
  bins.find? fun p => (heap p).name = name

/-! ### Cutting the sections out -/

/-- What every section bin's name begins with. -/
def sectionPrefix : Bstring := ['S', 'E', 'C', 'T', 'I', 'O', 'N', ' ']

/-- The name of the bin of a section. -/
def sectionName (label : Bstring) : Bstring := sectionPrefix ++ label

/-- The first loop of `bins_sectionize` at one section entry: the target bin is created
if it does not exist. -/
def createSection (s : LdBins × List BinPtr) (entry : LconvEntry) : LdBins × List BinPtr :=
  if (binSeek s.1.heap s.2 (sectionName entry.label)).isSome then s
  else
    (⟨Function.update s.1.heap s.1.next (binCreate (sectionName entry.label)), s.1.bins,
      s.1.next + 1⟩, s.2 ++ [s.1.next])

/-- The first loop of `bins_sectionize`: the state with the section bins in memory, and
the list `create`. -/
def createSections (s : LdBins) : LdBins × List BinPtr :=
  (s.bins.flatMap fun p => (s.heap p).tables .section).foldl createSection (s, [])

/-- How many words `bins_sectionize` takes for a section entry, before the sections that
remain. -/
def stealCount (size : ℕ) (stolen : ℤ) (e : LconvEntry) : List LconvEntry → ℤ
  -- until end-of-bin
  | [] => size - (e.address - stolen)
  -- up to the next section
  | e' :: _ => (e'.address - stolen) - (e.address - stolen)

/-- The inner loop of the second loop of `bins_sectionize`, over the sorted sections of a
bin that remain. -/
def stealSections (ls : ListSort) (bins create : List BinPtr) (bin : BinPtr) :
    ℤ → List LconvEntry → Heap → Except LdError Heap
  | _, [], heap => .ok heap
  | stolen, e :: es, heap =>
    match binSeek heap create (sectionName e.label) with
    | none => .error .assertion
    | some target =>
      let steal := stealCount (heap bin).words.length stolen e es
      let index : ℤ := e.address - stolen
      if steal < 0 ∨ index < 0 then .error .assertion
      else do
        let heap ← binMove ls false bins target bin (heap target).words.length index.toNat
          steal.toNat heap
        stealSections ls bins create bin (stolen + steal) es heap

/-- A bin with its section table sorted. -/
def LdBin.sortSections (ls : ListSort) (b : LdBin) : LdBin where
  name := b.name
  words := b.words
  tables t := if t = .section then ls.up (b.tables t) else b.tables t
  symbols := b.symbols

/-- The second loop of `bins_sectionize`. -/
def sectionizeLoop (ls : ListSort) (bins create : List BinPtr) :
    List BinPtr → Heap → Except LdError Heap
  | [], heap => .ok heap
  | bin :: rest, heap => do
    let heap := Function.update heap bin ((heap bin).sortSections ls)
    let heap ← stealSections ls bins create bin 0 ((heap bin).tables .section) heap
    sectionizeLoop ls bins create rest heap

/-- `bins_sectionize`. -/
def binsSectionize (ls : ListSort) (s : LdBins) : Except LdError LdBins := do
  binsPrint s.heap s.bins
  let (s, create) := createSections s
  let heap ← sectionizeLoop ls s.bins create s.bins s.heap
  binsPrint heap (s.bins ++ create)
  .ok ⟨heap, s.bins ++ create, s.next⟩

/-! ### Flattening -/

/-- The first loop of `bins_flatten`: the file bins are moved into the target. -/
def flattenFiles (ls : ListSort) (bins : List BinPtr) (target : BinPtr) :
    List BinPtr → Heap → Except LdError Heap
  | [], heap => .ok heap
  | bin :: rest, heap =>
    if (heap bin).name.take 8 = sectionPrefix then flattenFiles ls bins target rest heap
    else do
      let heap ← binMove ls false bins target bin (heap target).words.length 0
        (heap bin).words.length heap
      flattenFiles ls bins target rest heap

/-- The second loop of `bins_flatten`: the sections are inserted at the outputs, the last
output first. The loop iterates over the output table of the target, whose entries the
insertions neither shift nor add to. -/
def flattenOutputs (ls : ListSort) (bins : List BinPtr) (target : BinPtr) :
    List LconvEntry → Heap → Except LdError Heap
  | [], heap => .ok heap
  | e :: es, heap =>
    match binSeek heap bins (sectionName e.label) with
    -- there is no code for this output
    | none => flattenOutputs ls bins target es heap
    | some bin => do
      let heap ← binInsert ls true bins target bin e.address 0 (heap bin).words.length heap
      flattenOutputs ls bins target es heap

/-- A bin with its output table sorted, the last output first. -/
def LdBin.sortOutputs (ls : ListSort) (b : LdBin) : LdBin where
  name := b.name
  words := b.words
  tables t := if t = .output then ls.down (b.tables t) else b.tables t
  symbols := b.symbols

/-- `bins_flatten`. -/
def binsFlatten (ls : ListSort) (name : Bstring) (s : LdBins) : Except LdError LdBins := do
  let target := s.next
  let heap := Function.update s.heap target (binCreate name)
  let heap ← flattenFiles ls s.bins target s.bins heap
  let heap := Function.update heap target ((heap target).sortOutputs ls)
  let heap ← flattenOutputs ls s.bins target ((heap target).tables .output) heap
  binsPrint heap [target]
  .ok ⟨heap, [target], s.next + 1⟩

/-- The name `main` gives the flattened bin. -/
def outputName : Bstring := ['o', 'u', 't', 'p', 'u', 't']

/-- The link pipeline of `main` up to the flattened bin. -/
def linkFlat (ls : ListSort) (files : List LdBin) : Except LdError LdBins := do
  let s ← binsSectionize ls (binsAssociate (binsLoad files))
  binsFlatten ls outputName s

/-- The flattened bin. -/
def LdBins.flat (s : LdBins) : LdBin := s.heap (s.bins.headD 0)

theorem LdBins.flat_eq {s : LdBins} {p : BinPtr} (h : s.bins = [p]) : s.flat = s.heap p := by
  rw [LdBins.flat, h]
  rfl

end DcpuToolchain
