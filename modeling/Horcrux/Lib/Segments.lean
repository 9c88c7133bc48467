import Mathlib.Algebra.BigOperators.Group.List.Basic
import Mathlib.Algebra.Order.Ring.Nat
import Mathlib.Data.List.SplitLengths

namespace Segments

variable {α β : Type*} {w : Nat} {f : α → List β}

/-- The first blocks of a sequence of blocks of one width. -/
theorem take_flatMap (hf : ∀ x, (f x).length = w) (xs : List α) (i : Nat) :
    (xs.flatMap f).take (i * w) = (xs.take i).flatMap f := by
  induction i generalizing xs with
  | zero => simp
  | succ i ih =>
    cases xs with
    | nil => simp
    | cons x xs =>
      have hle : (f x).length ≤ (i + 1) * w := by
        rw [hf, Nat.succ_mul]
        exact Nat.le_add_left _ _
      rw [List.flatMap_cons, List.take_append, List.take_of_length_le hle, hf, Nat.succ_mul,
        Nat.add_sub_cancel, ih, List.take_succ_cons, List.flatMap_cons]

theorem drop_flatMap (hf : ∀ x, (f x).length = w) (xs : List α) (i : Nat) :
    (xs.flatMap f).drop (i * w) = (xs.drop i).flatMap f := by
  have hsplit : xs.flatMap f = (xs.take i).flatMap f ++ (xs.drop i).flatMap f := by
    rw [← List.flatMap_append, List.take_append_drop]
  rw [← take_flatMap hf] at hsplit
  exact List.append_cancel_left ((List.take_append_drop _ _).trans hsplit)

theorem length_flatMap (hf : ∀ x, (f x).length = w) (xs : List α) :
    (xs.flatMap f).length = xs.length * w := by
  induction xs with
  | nil => simp
  | cons x xs ih =>
    rw [List.flatMap_cons, List.length_append, hf, ih, List.length_cons, Nat.succ_mul, Nat.add_comm]

/-- What stands at an offset inside a block. -/
theorem getElem?_flatMap (hf : ∀ x, (f x).length = w) {xs : List α} (hx : xs[j]? = some x)
    (hr : r < w) : (xs.flatMap f)[j * w + r]? = (f x)[r]? := by
  obtain ⟨hj, rfl⟩ := List.getElem?_eq_some_iff.mp hx
  rw [← List.getElem?_drop, drop_flatMap hf, List.drop_eq_getElem_cons hj, List.flatMap_cons,
    List.getElem?_append_left (by rw [hf]; exact hr)]

/-- One segment more. -/
theorem splitLengths_concat (sz : List Nat) (n : Nat) (l : List α) :
    (sz ++ [n]).splitLengths l = sz.splitLengths l ++ [(l.drop sz.sum).take n] := by
  induction sz generalizing l with
  | nil => simp
  | cons m sz ih =>
    rw [List.cons_append, List.splitLengths_cons, ih, List.splitLengths_cons, List.cons_append,
      List.drop_drop, List.sum_cons]

theorem getElem?_splitLengths (sz : List Nat) (l : List α) (i : Nat) :
    (sz.splitLengths l)[i]? = sz[i]?.map fun n => (l.drop (sz.take i).sum).take n := by
  induction sz generalizing l i with
  | nil => simp
  | cons m sz ih =>
    cases i with
    | zero => simp
    | succ i =>
      rw [List.splitLengths_cons, List.getElem?_cons_succ, ih, List.getElem?_cons_succ,
        List.take_succ_cons, List.sum_cons, List.drop_drop]

/-- The offsets of the segments do not decrease. -/
theorem sum_take_le (sz : List Nat) (h : i ≤ j) : (sz.take i).sum ≤ (sz.take j).sum := by
  have hsplit : sz.take j = sz.take i ++ (sz.take j).drop i := by
    conv_lhs => rw [← List.take_append_drop i (sz.take j), List.take_take, Nat.min_eq_left h]
  rw [hsplit, List.sum_append]
  exact Nat.le_add_right _ _

end Segments
