import Mathlib.Algebra.GroupWithZero.Nat
import Mathlib.Algebra.BigOperators.Group.List.Basic
import Mathlib.Data.List.Nodup

/-!
# Objects that are linked

An object is a list of items with exports, which are names for positions of items. An item is a
value as it is, the position of an item, or a name that is imported. Objects are put one behind
the other (`Linking.Object.concat`): a position then is raised by the number of the items before
its object, and a name stays a name. This is associative, so that objects can be put together in
groups (`Linking.Object.concat_flatten`).

Only in the end the names are replaced by positions (`Linking.Object.values`). Where no name is
exported twice, what a name stands for in one of the objects it stands for in all of them
(`Linking.Object.target_concat`), so that it may as well be replaced earlier.
-/

namespace Linking

variable {N W : Type}

/-! ### Objects -/

/-- An item of an object. -/
inductive Piece (N W : Type)
  | fixed (w : W)
  | address (q : ℕ)
  | imported (isOptional : Bool) (name : N)
  deriving DecidableEq, Repr

/-- An item behind other items. -/
def Piece.shift (n : ℕ) : Piece N W → Piece N W
  | fixed w => fixed w
  | address q => address (n + q)
  | imported isOptional name => imported isOptional name

theorem Piece.shift_zero (item : Piece N W) : item.shift 0 = item := by
  cases item with
  | address q => exact congrArg Piece.address (Nat.zero_add q)
  | _ => rfl

theorem Piece.shift_shift (item : Piece N W) (k n : ℕ) :
    (item.shift n).shift k = item.shift (k + n) := by
  cases item with
  | address q => exact congrArg Piece.address (Nat.add_assoc k n q).symm
  | _ => rfl

/-- **An object**: positions are those of items. -/
@[ext] structure Object (N W : Type) where
  items : List (Piece N W)
  exports : List (N × ℕ)
  address_lt : ∀ q, Piece.address q ∈ items → q < items.length
  exports_lt : ∀ x ∈ exports, x.2 < items.length

namespace Object

variable {a b c : Object N W} {cs cs' : List (Object N W)} {i j k n q : ℕ} {name : N}
  {item : Piece N W}

/-- The object without items. -/
def empty : Object N W := ⟨[], [], fun _ h => absurd h List.not_mem_nil, fun _ h =>
  absurd h List.not_mem_nil⟩

/-- The exports of an object behind other items. -/
def shiftedExports (n : ℕ) (c : Object N W) : List (N × ℕ) := c.exports.map (Prod.map id (n + ·))

/-- An object behind another one. -/
def append (a b : Object N W) : Object N W where
  items := a.items ++ b.items.map (Piece.shift a.items.length)
  exports := a.exports ++ b.shiftedExports a.items.length
  address_lt := by
    intro q hq
    rw [List.length_append, List.length_map]
    rcases List.mem_append.mp hq with hq | hq
    · exact Nat.lt_add_right _ (a.address_lt q hq)
    · obtain ⟨item, hitem, heq⟩ := List.mem_map.mp hq
      cases item with
      | address q' =>
        cases heq
        exact Nat.add_lt_add_left (b.address_lt q' hitem) _
      | _ => cases heq
  exports_lt := by
    intro x hx
    rw [List.length_append, List.length_map]
    rcases List.mem_append.mp hx with hx | hx
    · exact Nat.lt_add_right _ (a.exports_lt x hx)
    · obtain ⟨y, hy, rfl⟩ := List.mem_map.mp hx
      exact Nat.add_lt_add_left (b.exports_lt y hy) _

/-- Objects, one behind the other. -/
def concat (cs : List (Object N W)) : Object N W := cs.foldr append empty

/-- Where an object begins. -/
def base (cs : List (Object N W)) (k : ℕ) : ℕ := ((cs.take k).map (·.items.length)).sum

/-! ### One behind the other -/

theorem shiftedExports_shiftedExports (c : Object N W) :
    (c.shiftedExports n).map (Prod.map id (k + ·)) = c.shiftedExports (k + n) := by
  rw [shiftedExports, shiftedExports, List.map_map]
  refine List.map_congr_left fun x _ => ?_
  exact Prod.ext rfl (Nat.add_assoc k n x.2).symm

theorem length_append (a b : Object N W) :
    (a.append b).items.length = a.items.length + b.items.length := by
  rw [append, List.length_append, List.length_map]

theorem items_append (a b : Object N W) :
    (a.append b).items = a.items ++ b.items.map (Piece.shift a.items.length) := rfl

theorem exports_append (a b : Object N W) :
    (a.append b).exports = a.exports ++ b.shiftedExports a.items.length := rfl

theorem append_assoc (a b c : Object N W) : (a.append b).append c = a.append (b.append c) := by
  refine Object.ext ?_ ?_
  · rw [items_append, length_append, items_append, items_append, items_append, List.append_assoc,
      List.map_append, List.map_map]
    congr 2
    refine List.map_congr_left fun item _ => ?_
    exact (item.shift_shift ..).symm
  · rw [exports_append, length_append, exports_append, exports_append, List.append_assoc]
    congr 1
    rw [← shiftedExports_shiftedExports]
    exact List.map_append.symm

theorem empty_append (c : Object N W) : empty.append c = c := by
  refine Object.ext ?_ ?_
  · refine (List.map_congr_left fun item _ => ?_).trans c.items.map_id
    exact item.shift_zero
  · refine (List.map_congr_left fun x _ => ?_).trans c.exports.map_id
    exact Prod.ext rfl (Nat.zero_add x.2)

theorem append_empty (c : Object N W) : c.append empty = c :=
  Object.ext (List.append_nil _) (List.append_nil _)

theorem concat_cons (c : Object N W) (cs : List (Object N W)) :
    concat (c :: cs) = c.append (concat cs) := rfl

theorem concat_singleton (c : Object N W) : concat [c] = c := append_empty c

theorem concat_append (cs cs' : List (Object N W)) :
    concat (cs ++ cs') = (concat cs).append (concat cs') := by
  induction cs with
  | nil => exact (empty_append _).symm
  | cons c cs ih => rw [List.cons_append, concat_cons, ih, concat_cons, append_assoc]

/-- **Objects can be put together in groups.** -/
theorem concat_flatten (groups : List (List (Object N W))) :
    concat (groups.map concat) = concat groups.flatten := by
  induction groups with
  | nil => rfl
  | cons group groups ih =>
    rw [List.map_cons, concat_cons, ih, List.flatten_cons, concat_append]

theorem length_concat (cs : List (Object N W)) :
    (concat cs).items.length = (cs.map (·.items.length)).sum := by
  induction cs with
  | nil => rfl
  | cons c cs ih => rw [concat_cons, length_append, ih, List.map_cons, List.sum_cons]

theorem base_cons (c : Object N W) (cs : List (Object N W)) (k : ℕ) :
    base (c :: cs) (k + 1) = c.items.length + base cs k := by
  rw [base, List.take_succ_cons, List.map_cons, List.sum_cons]
  rfl

/-- **The items of objects**, one object behind the other. -/
theorem getElem?_concat_iff : (concat cs).items[j]? = some item ↔ ∃ (k : ℕ) (c : Object N W)
    (i : ℕ) (item' : Piece N W), cs[k]? = some c ∧ c.items[i]? = some item' ∧ j = base cs k + i ∧
      item = item'.shift (base cs k) := by
  induction cs generalizing j item with
  | nil => exact iff_of_false (fun h => by cases h) fun ⟨_, _, _, _, h, _⟩ => by cases h
  | cons c cs ih =>
    have hfirst : base (c :: cs) 0 = 0 := rfl
    rw [concat_cons, append]
    dsimp only
    rcases Nat.lt_or_ge j c.items.length with hj | hj
    · rw [List.getElem?_append_left hj]
      constructor
      · exact fun h => ⟨0, c, j, item, rfl, h, by rw [hfirst, Nat.zero_add], item.shift_zero.symm⟩
      · rintro ⟨k, c', i, item', hc, hi, rfl, rfl⟩
        cases k with
        | zero =>
          cases hc
          rw [hfirst, Nat.zero_add, item'.shift_zero]
          exact hi
        | succ k =>
          rw [base_cons] at hj
          omega
    · rw [List.getElem?_append_right hj, List.getElem?_map, Option.map_eq_some_iff]
      constructor
      · rintro ⟨item', hitem', rfl⟩
        obtain ⟨k, c', i, item', hc, hi, hplace, rfl⟩ := ih.mp hitem'
        refine ⟨k + 1, c', i, item', hc, hi, ?_, ?_⟩
        · rw [base_cons]
          omega
        · rw [base_cons, item'.shift_shift]
      · rintro ⟨k, c', i, item', hc, hi, rfl, rfl⟩
        cases k with
        | zero =>
          cases hc
          have hlt := (List.getElem?_eq_some_iff.mp hi).1
          rw [hfirst] at hj
          omega
        | succ k =>
          refine ⟨_, ih.mpr ⟨k, c', i, item', hc, hi, ?_, rfl⟩, ?_⟩
          · rw [base_cons]
            omega
          · rw [base_cons, item'.shift_shift]

theorem mem_exports_concat {x : N × ℕ} : x ∈ (concat cs).exports ↔ ∃ (k : ℕ) (c : Object N W)
    (q : ℕ), cs[k]? = some c ∧ (x.1, q) ∈ c.exports ∧ x.2 = base cs k + q := by
  induction cs generalizing x with
  | nil => exact iff_of_false List.not_mem_nil fun ⟨_, _, _, h, _⟩ => by cases h
  | cons c cs ih =>
    have hfirst : base (c :: cs) 0 = 0 := rfl
    rw [concat_cons, append, List.mem_append, shiftedExports, List.mem_map]
    constructor
    · rintro (hx | ⟨y, hy, rfl⟩)
      · exact ⟨0, c, x.2, rfl, hx, by rw [hfirst, Nat.zero_add]⟩
      · obtain ⟨k, c', q, hc, hq, heq⟩ := ih.mp hy
        refine ⟨k + 1, c', q, hc, hq, ?_⟩
        rw [base_cons, Nat.add_assoc, ← heq]
        rfl
    · rintro ⟨k, c', q, hc, hq, heq⟩
      cases k with
      | zero =>
        cases hc
        rw [hfirst, Nat.zero_add] at heq
        rw [← heq] at hq
        exact .inl hq
      | succ k =>
        rw [base_cons, Nat.add_assoc] at heq
        exact .inr ⟨(x.1, base cs k + q), ih.mpr ⟨k, c', q, hc, hq, rfl⟩,
          Prod.ext rfl heq.symm⟩

/-- What is imported is imported in one of the objects. -/
theorem mem_imported_concat {isOptional : Bool} :
    Piece.imported isOptional name ∈ (concat cs).items ↔
      ∃ c ∈ cs, Piece.imported isOptional name ∈ c.items := by
  constructor
  · intro h
    obtain ⟨j, hj⟩ := List.mem_iff_getElem?.mp h
    obtain ⟨k, c, i, item, hc, hi, -, heq⟩ := getElem?_concat_iff.mp hj
    cases item with
    | imported isOptional' name' =>
      cases heq
      exact ⟨c, List.mem_of_getElem? hc, List.mem_of_getElem? hi⟩
    | _ => cases heq
  · rintro ⟨c, hc, h⟩
    obtain ⟨k, hk⟩ := List.mem_iff_getElem?.mp hc
    obtain ⟨i, hi⟩ := List.mem_iff_getElem?.mp h
    exact List.mem_of_getElem? (getElem?_concat_iff.mpr ⟨k, c, i, _, hk, hi, rfl, rfl⟩)

/-- The names of the exports. -/
def names (c : Object N W) : List N := c.exports.map Prod.fst

theorem names_append (a b : Object N W) : (a.append b).names = a.names ++ b.names := by
  rw [names, append, List.map_append, shiftedExports, List.map_map]
  rfl

theorem names_concat (cs : List (Object N W)) : (concat cs).names = cs.flatMap names := by
  induction cs with
  | nil => rfl
  | cons c cs ih => rw [concat_cons, names_append, ih, List.flatMap_cons]

/-! ### What names stand for -/

section Positions

variable [DecidableEq N]

/-- The position of a name. -/
def position (c : Object N W) (name : N) : Option ℕ :=
  (c.exports.find? (·.1 = name)).map Prod.snd

theorem mem_exports_of_position (h : c.position name = some q) : (name, q) ∈ c.exports := by
  rw [position, Option.map_eq_some_iff] at h
  obtain ⟨x, hx, rfl⟩ := h
  have hname := List.find?_some hx
  rw [decide_eq_true_iff] at hname
  rw [← hname]
  exact List.mem_of_find?_eq_some hx

theorem position_eq_none_iff : c.position name = none ↔ name ∉ c.names := by
  rw [position, Option.map_eq_none_iff, List.find?_eq_none, names, List.mem_map]
  constructor
  · rintro h ⟨x, hx, rfl⟩
    exact h x hx (decide_eq_true rfl)
  · intro h x hx heq
    exact h ⟨x, hx, of_decide_eq_true heq⟩

/-- Where no name is exported twice, an export is found. -/
theorem position_eq_some_iff (hnodup : c.names.Nodup) :
    c.position name = some q ↔ (name, q) ∈ c.exports := by
  refine ⟨mem_exports_of_position, fun h => ?_⟩
  cases hposition : c.position name with
  | none =>
    rw [position_eq_none_iff] at hposition
    exact absurd (List.mem_map.mpr ⟨_, h, rfl⟩) hposition
  | some q' =>
    have hsame := List.inj_on_of_nodup_map hnodup (mem_exports_of_position hposition) h rfl
    exact congrArg (some ∘ Prod.snd) hsame

/-- A name is looked for in one object after the other. -/
theorem position_append (a b : Object N W) (name : N) :
    (a.append b).position name =
      (a.position name).or ((b.position name).map (a.items.length + ·)) := by
  rw [position, position, position, exports_append, List.find?_append, shiftedExports,
    List.find?_map, Option.map_or, Option.map_map, Option.map_map]
  rfl

/-- A position that is found is that of an item. -/
theorem position_lt (h : c.position name = some q) : q < c.items.length :=
  c.exports_lt _ (mem_exports_of_position h)

/-- The position that an item stands for. -/
def targetOf (c : Object N W) : Piece N W → Option ℕ
  | .fixed _ => none
  | .address q => some q
  | .imported _ name => c.position name

/-- The position that the item at a position stands for. -/
def target (c : Object N W) (i : ℕ) : Option ℕ := c.items[i]?.bind c.targetOf

theorem target_eq_some_iff : c.target i = some q ↔
    ∃ item, c.items[i]? = some item ∧ c.targetOf item = some q := Option.bind_eq_some_iff

theorem target_lt (h : c.target i = some q) : q < c.items.length := by
  obtain ⟨item, hitem, hq⟩ := target_eq_some_iff.mp h
  cases item with
  | fixed w => cases hq
  | address q' =>
    cases hq
    exact c.address_lt _ (List.mem_of_getElem? hitem)
  | imported isOptional name => exact position_lt hq

/-- What a name stands for in an object. -/
theorem position_concat (hnodup : (concat cs).names.Nodup) (hc : cs[k]? = some c)
    (h : c.position name = some q) : (concat cs).position name = some (base cs k + q) := by
  rw [position_eq_some_iff hnodup, mem_exports_concat]
  exact ⟨k, c, q, hc, mem_exports_of_position h, rfl⟩

/-- **What an item stands for in its object it stands for in all of them.** -/
theorem target_concat (hnodup : (concat cs).names.Nodup) (hc : cs[k]? = some c)
    (h : c.target i = some q) : (concat cs).target (base cs k + i) = some (base cs k + q) := by
  obtain ⟨item, hitem, hq⟩ := target_eq_some_iff.mp h
  refine target_eq_some_iff.mpr
    ⟨_, getElem?_concat_iff.mpr ⟨k, c, i, item, hc, hitem, rfl, rfl⟩, ?_⟩
  cases item with
  | fixed w => cases hq
  | address q' =>
    cases hq
    rfl
  | imported isOptional name => exact position_concat hnodup hc hq

/-- The value of an item, in the end. A name that is optional and not exported is at zero. -/
def value (ofNat : ℕ → W) (c : Object N W) : Piece N W → Option W
  | .fixed w => some w
  | .address q => some (ofNat q)
  | .imported true name => some (ofNat ((c.position name).getD 0))
  | .imported false name => (c.position name).map ofNat

/-- **The values of the items.** -/
def values (ofNat : ℕ → W) (c : Object N W) : List (Option W) := c.items.map (c.value ofNat)

/-- A name is imported, must not be missing, and is. -/
def Lacks (c : Object N W) : Prop :=
  ∃ name, .imported false name ∈ c.items ∧ c.position name = none

/-- A name that is missing has no value. -/
theorem none_mem_values {ofNat : ℕ → W} (h : c.Lacks) : none ∈ c.values ofNat := by
  obtain ⟨name, hname, hnone⟩ := h
  refine List.mem_map.mpr ⟨_, hname, ?_⟩
  rw [value, hnone, Option.map_none]

/-- No name that is optional is exported. -/
def Settled (c : Object N W) : Prop :=
  ∀ name, .imported true name ∈ c.items → c.position name = none

end Positions

end Object

end Linking
