import Mathlib.Data.List.Basic
import Mathlib.Tactic.Ring

/-!
# Reading back what was written

A reader takes symbols off the front of a stream and fails where there are too few. What it
makes of some symbols is stated whatever follows them (`Codec.Reads`), so that readers of
fields are put together to readers of records, and these to readers of files.

Numbers are written with a given number of bytes, in the byte order of the machine.
-/

namespace Codec

variable {β α γ σ : Type}

/-- Readers of a stream. -/
abbrev Reader (β α : Type) := StateT (List β) Option α

/-- **A reader reads a text as a value**, whatever follows the text. -/
def Reads (r : Reader β α) (text : List β) (a : α) : Prop :=
  ∀ rest, r.run (text ++ rest) = some (a, rest)

theorem Reads.pure (a : α) : Reads (β := β) (Pure.pure a) [] a := fun _ => rfl

theorem Reads.bind {r : Reader β α} {f : α → Reader β γ} {text text' : List β} {a : α} {c : γ}
    (h : Reads r text a) (h' : Reads (f a) text' c) : Reads (r >>= f) (text ++ text') c := by
  intro rest
  have hrun : (r >>= f).run (text ++ text' ++ rest) =
      (r.run (text ++ text' ++ rest)).bind fun p => (f p.1).run p.2 := rfl
  rw [hrun, List.append_assoc, h, Option.bind_some, h']

/-- What follows the last field reads nothing. -/
theorem Reads.bind_last {r : Reader β α} {f : α → Reader β γ} {text : List β} {a : α} {c : γ}
    (h : Reads r text a) (h' : Reads (f a) [] c) : Reads (r >>= f) text c := by
  have hread := h.bind h'
  rwa [List.append_nil] at hread

theorem Reads.map {r : Reader β α} {text : List β} {a : α} (f : α → γ) (h : Reads r text a) :
    Reads (f <$> r) text (f a) := by
  intro rest
  have hrun : (f <$> r).run (text ++ rest) =
      (r.run (text ++ rest)).bind fun p => some (f p.1, p.2) := rfl
  rw [hrun, h, Option.bind_some]

/-! ### Fields -/

/-- The next symbols. -/
def take (n : ℕ) : Reader β (List β) := fun text =>
  if n ≤ text.length then some (text.take n, text.drop n) else none

theorem reads_take (text : List β) : Reads (take text.length) text text := by
  intro rest
  change (if _ then _ else _) = _
  rw [if_pos (by simp), List.take_left, List.drop_left]

/-- The bytes of a number, the lowest first. -/
def bytes : (count : ℕ) → ℕ → List UInt8
  | 0, _ => []
  | count + 1, n => UInt8.ofNat n :: bytes count (n / 256)

/-- The number with these bytes. -/
def ofBytes : List UInt8 → ℕ
  | [] => 0
  | b :: bs => b.toNat + 256 * ofBytes bs

@[simp] theorem bytes_length (count n : ℕ) : (bytes count n).length = count := by
  induction count generalizing n with
  | zero => rfl
  | succ count ih => rw [bytes, List.length_cons, ih]

theorem ofBytes_bytes {count n : ℕ} (h : n < 256 ^ count) : ofBytes (bytes count n) = n := by
  induction count generalizing n with
  | zero =>
    rw [Nat.pow_zero, Nat.lt_one_iff] at h
    rw [h]
    rfl
  | succ count ih =>
    have hdiv : n / 256 < 256 ^ count := by
      rw [Nat.div_lt_iff_lt_mul (by decide), ← Nat.pow_succ]
      exact h
    rw [bytes, ofBytes, ih hdiv, UInt8.toNat_ofNat', Nat.mod_add_div]

/-- The order of the bytes of a number. -/
inductive Endian
  | little | big
  deriving DecidableEq, Repr

/-- Bytes in an order. -/
def Endian.arrange : Endian → List UInt8 → List UInt8
  | little, l => l
  | big, l => l.reverse

theorem Endian.arrange_arrange (o : Endian) (l : List UInt8) : o.arrange (o.arrange l) = l := by
  cases o with
  | little => rfl
  | big => exact List.reverse_reverse l

@[simp] theorem Endian.arrange_length (o : Endian) (l : List UInt8) :
    (o.arrange l).length = l.length := by
  cases o with
  | little => rfl
  | big => exact List.length_reverse

/-- A number is written. -/
def put (o : Endian) (count n : ℕ) : List UInt8 := o.arrange (bytes count n)

@[simp] theorem put_length (o : Endian) (count n : ℕ) : (put o count n).length = count := by
  rw [put, Endian.arrange_length, bytes_length]

/-- A number is read. -/
def number (o : Endian) (count : ℕ) : Reader UInt8 ℕ := (ofBytes <| o.arrange ·) <$> take count

theorem reads_number (o : Endian) {count n : ℕ} (h : n < 256 ^ count) :
    Reads (number o count) (put o count n) n := by
  have htake := (reads_take (put o count n)).map (ofBytes <| o.arrange ·)
  rw [put_length] at htake
  rw [put, Endian.arrange_arrange, ofBytes_bytes h] at htake
  exact htake

/-! ### Records -/

/-- A number of records. -/
def times (r : Reader β α) : ℕ → Reader β (List α)
  | 0 => pure []
  | n + 1 => r >>= fun a => times r n >>= fun as => pure (a :: as)

/-- **A list of records is read back**, if each of them is. -/
theorem reads_times {r : Reader β α} {write : α → List β} {l : List α}
    (h : ∀ a ∈ l, Reads r (write a) a) : Reads (times r l.length) (l.flatMap write) l := by
  induction l with
  | nil => exact .pure []
  | cons a l ih =>
    rw [List.forall_mem_cons] at h
    exact h.1.bind ((ih h.2).bind_last (.pure (a :: l)))

/-- Records up to one that ends them, taken up one by one. -/
def foldUntil (r : Reader β α) (ends : α → Bool) (f : σ → α → σ) : (fuel : ℕ) → σ → Reader β σ
  | 0, _ => failure
  | fuel + 1, s => r >>= fun a => if ends a then pure s else foldUntil r ends f fuel (f s a)

/-- **Records are read up to one that ends them.** -/
theorem reads_foldUntil {r : Reader β α} {ends : α → Bool} {f : σ → α → σ} {write : α → List β}
    {l : List α} {last : α} (h : ∀ a ∈ l, Reads r (write a) a ∧ ends a = false)
    (hlast : Reads r (write last) last) (hends : ends last = true) {fuel : ℕ}
    (hfuel : l.length < fuel) (s : σ) :
    Reads (foldUntil r ends f fuel s) (l.flatMap write ++ write last) (l.foldl f s) := by
  induction l generalizing fuel s with
  | nil =>
    obtain ⟨fuel, rfl⟩ := Nat.exists_eq_succ_of_ne_zero (Nat.ne_of_gt hfuel)
    refine hlast.bind_last ?_
    rw [hends, if_pos rfl]
    exact .pure s
  | cons a l ih =>
    obtain ⟨fuel, rfl⟩ := Nat.exists_eq_succ_of_ne_zero (Nat.ne_of_gt (Nat.zero_lt_of_lt hfuel))
    rw [List.forall_mem_cons] at h
    have hrest := ih h.2 (Nat.lt_of_succ_lt_succ hfuel) (f s a)
    rw [List.flatMap_cons, List.append_assoc]
    refine h.1.1.bind ?_
    rw [h.1.2, if_neg Bool.false_ne_true]
    exact hrest

end Codec
