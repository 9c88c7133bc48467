import Mathlib.Data.List.Basic

namespace Decimal

theorem repr_injective {m n : Nat} (h : m.repr = n.repr) : m = n := by
  have hl := congrArg (fun s => Nat.ofDigitChars 10 s.toList 0) h
  simpa only [Nat.toList_repr, Nat.ofDigitChars_ten_toDigits] using hl

/-- A separator that no element of either prefix equals splits a list in one way. -/
theorem append_sep_inj {α : Type*} {sep : α} {xs ys us vs : List α} (hx : sep ∉ xs) (hy : sep ∉ ys)
    (h : xs ++ sep :: us = ys ++ sep :: vs) : xs = ys ∧ us = vs := by
  induction xs generalizing ys with
  | nil =>
    cases ys with
    | nil => simpa using h
    | cons y ys =>
      simp only [List.nil_append, List.cons_append, List.cons.injEq] at h
      exact False.elim (hy (by simp [h.1]))
  | cons x xs ih =>
    cases ys with
    | nil =>
      simp only [List.nil_append, List.cons_append, List.cons.injEq] at h
      exact False.elim (hx (by simp [h.1]))
    | cons y ys =>
      simp only [List.cons_append, List.cons.injEq, List.mem_cons, not_or] at h hx hy
      obtain ⟨he, ht⟩ := ih hx.2 hy.2 h.2
      exact ⟨by rw [h.1, he], ht⟩

theorem not_mem_repr {c : Char} (n : Nat) (hc : c.isDigit = false) : c ∉ n.repr.toList := by
  intro hm
  rw [Nat.toList_repr] at hm
  have hd := Nat.isDigit_of_mem_toDigits (by decide) (by decide) hm
  rw [hc] at hd
  cases hd

/-- A decimal rendering followed by a separator that does not start with a digit
determines both the number and the text after the separator. -/
theorem repr_append_inj {m n : Nat} {s t : String} (sep : String) (hs : sep.toList = c :: cs)
    (hc : c.isDigit = false) (h : m.repr ++ sep ++ s = n.repr ++ sep ++ t) : m = n ∧ s = t := by
  have hl := congrArg String.toList h
  simp only [String.toList_append, hs, List.append_assoc, List.cons_append] at hl
  obtain ⟨hn, hr⟩ := append_sep_inj (not_mem_repr m hc) (not_mem_repr n hc) hl
  exact ⟨repr_injective (String.toList_inj.mp hn),
    String.toList_inj.mp (List.append_cancel_left hr)⟩

end Decimal
