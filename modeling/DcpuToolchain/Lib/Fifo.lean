import Mathlib.Data.List.Basic

/-!
# The history of a queue

A first-in first-out queue is characterised by its history: what was put in is what
came out, in order, followed by what is still inside. The structure carries that
equation as a field, so a history that lost, duplicated or reordered an item cannot
be built; its three operations are the three ways an item can move.
-/

namespace Fifo

/-- What was put into a queue, what came out of it, and what is still inside. -/
@[ext] structure History (α : Type*) where
  put : List α
  got : List α
  inside : List α
  inOrder : put = got ++ inside

namespace History

variable {α : Type*}

/-- The history of a queue nobody has used. -/
@[simps] def empty : History α where
  put := []
  got := []
  inside := []
  inOrder := rfl

/-- An item goes in. -/
@[simps] def enqueue (h : History α) (a : α) : History α where
  put := h.put ++ [a]
  got := h.got
  inside := h.inside ++ [a]
  inOrder := by rw [h.inOrder, List.append_assoc]

/-- The oldest item comes out. -/
@[simps] def dequeue (h : History α) {a : α} {rest : List α} (hc : h.inside = a :: rest) :
    History α where
  put := h.put
  got := h.got ++ [a]
  inside := rest
  inOrder := by rw [h.inOrder, hc, List.append_assoc, List.singleton_append]

/-- An item passes through an empty queue. -/
@[simps] def pass (h : History α) (a : α) (hc : h.inside = []) : History α where
  put := h.put ++ [a]
  got := h.got ++ [a]
  inside := []
  inOrder := by rw [h.inOrder, hc, List.append_nil, List.append_nil]

/-- **Nothing is lost, duplicated or overtaken**: what came out is the beginning of what
went in. -/
theorem got_prefix_put (h : History α) : h.got <+: h.put :=
  ⟨h.inside, h.inOrder.symm⟩

end History

end Fifo
