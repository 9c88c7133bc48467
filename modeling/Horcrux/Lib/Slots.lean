import Mathlib.Algebra.BigOperators.Group.List.Basic
import Mathlib.Algebra.Order.Ring.Nat
import Mathlib.Data.List.Induction
import Mathlib.Data.List.Nodup
import Mathlib.Data.List.Perm.Subperm

namespace Slots

variable {α : Type*}

/-- A table of slots with each value put into the slot that its key names. -/
def fill (slots : List (Option α)) (xs : List (Nat × α)) : List (Option α) :=
  xs.foldl (fun slots x => slots.set x.1 (some x.2)) slots

/-- Every value has a slot of its own among the first `n`. -/
structure Fits (n : Nat) (xs : List (Nat × α)) : Prop where
  lt : ∀ x ∈ xs, x.1 < n
  nodup : (xs.map Prod.fst).Nodup

/-- The filled slots, each counted with its weight. -/
def total (w : α → Nat) (slots : List (Option α)) : Nat :=
  (slots.map (fun slot => slot.elim 0 w)).sum

@[simp] theorem fill_nil (slots : List (Option α)) : fill slots [] = slots := rfl

theorem fill_concat (slots : List (Option α)) (xs : List (Nat × α)) (x : Nat × α) :
    fill slots (xs ++ [x]) = (fill slots xs).set x.1 (some x.2) := by
  simp [fill]

@[simp] theorem length_fill (slots : List (Option α)) (xs : List (Nat × α)) :
    (fill slots xs).length = slots.length := by
  induction xs generalizing slots with
  | nil => rfl
  | cons x xs ih => simpa [fill] using ih (slots.set x.1 (some x.2))

theorem Fits.nil (n : Nat) : Fits n ([] : List (Nat × α)) := ⟨by simp, by simp⟩

theorem Fits.perm {xs ys : List (Nat × α)} (h : Fits n xs) (hp : xs.Perm ys) : Fits n ys :=
  ⟨fun x hx => h.lt x (hp.mem_iff.mpr hx), (hp.map Prod.fst).nodup_iff.mp h.nodup⟩

theorem Fits.of_concat {xs : List (Nat × α)} (h : Fits n (xs ++ [x])) : Fits n xs :=
  ⟨fun y hy => h.lt y (by simp [hy]),
    h.nodup.sublist ((List.sublist_append_left xs [x]).map Prod.fst)⟩

theorem Fits.not_mem_of_concat {xs : List (Nat × α)} (h : Fits n (xs ++ [x])) :
    x.1 ∉ xs.map Prod.fst := by
  intro hm
  have hd := h.nodup
  rw [List.map_append] at hd
  exact (List.nodup_append.mp hd).2.2 x.1 hm x.1 (by simp) rfl

theorem Fits.concat {xs : List (Nat × α)} (h : Fits n xs) (hx : x.1 < n)
    (hn : x.1 ∉ xs.map Prod.fst) : Fits n (xs ++ [x]) := by
  refine ⟨?_, ?_⟩
  · intro y hy
    rcases List.mem_append.mp hy with hm | hm
    · exact h.lt y hm
    · rw [List.mem_singleton.mp hm]
      exact hx
  · rw [List.map_append]
    refine List.nodup_append.mpr ⟨h.nodup, by simp, ?_⟩
    simpa using fun y hy => ne_of_mem_of_not_mem hy hn

theorem Fits.subset_range {xs : List (Nat × α)} (h : Fits n xs) :
    xs.map Prod.fst ⊆ List.range n := by
  intro k hk
  obtain ⟨x, hx, rfl⟩ := List.mem_map.mp hk
  exact List.mem_range.mpr (h.lt x hx)

/-- There are at most as many values as slots. -/
theorem Fits.length_le {xs : List (Nat × α)} (h : Fits n xs) : xs.length ≤ n := by
  simpa using h.nodup.length_le_of_subset h.subset_range

/-- With as many values as slots, the keys are all the slots, in some order. -/
theorem Fits.perm_range {xs : List (Nat × α)} (h : Fits n xs) (hl : xs.length = n) :
    (xs.map Prod.fst).Perm (List.range n) := by
  exact (List.subperm_of_subset h.nodup h.subset_range).perm_of_length_le (by simp [hl])

theorem Fits.of_perm_range {xs : List (Nat × α)} (h : (xs.map Prod.fst).Perm (List.range n)) :
    Fits n xs :=
  ⟨fun _ hx => List.mem_range.mp (h.mem_iff.mp (List.mem_map_of_mem hx)),
    h.nodup_iff.mpr List.nodup_range⟩

/-- With fewer values than slots, one slot is free. -/
theorem Fits.exists_free {xs : List (Nat × α)} (h : xs.length < n) :
    ∃ i < n, i ∉ xs.map Prod.fst := by
  by_contra hall
  have hs : List.range n ⊆ xs.map Prod.fst := by
    intro i hi
    by_contra hn
    exact hall ⟨i, List.mem_range.mp hi, hn⟩
  have hle := List.nodup_range.length_le_of_subset hs
  simp only [List.length_range, List.length_map] at hle
  omega

theorem getElem?_fill_of_not_mem (slots : List (Option α)) (xs : List (Nat × α))
    (hi : i ∉ xs.map Prod.fst) : (fill slots xs)[i]? = slots[i]? := by
  induction xs using List.reverseRecOn with
  | nil => rfl
  | append_singleton xs x ih =>
    simp only [List.map_append, List.map_cons, List.map_nil, List.mem_append,
      List.mem_singleton, not_or] at hi
    rw [fill_concat, List.getElem?_set_ne (Ne.symm hi.2), ih hi.1]

theorem Fits.getElem?_fill {xs : List (Nat × α)} (h : Fits slots.length xs)
    (hm : (i, a) ∈ xs) : (fill slots xs)[i]? = some (some a) := by
  induction xs using List.reverseRecOn with
  | nil => simp at hm
  | append_singleton xs x ih =>
    rw [fill_concat]
    by_cases hx : (i, a) = x
    · subst hx
      exact List.getElem?_set_self (by simpa using h.lt (i, a) (by simp))
    · have hxs : (i, a) ∈ xs := by simpa [hx] using hm
      have hne : x.1 ≠ i := by
        intro he
        exact h.not_mem_of_concat (List.mem_map.mpr ⟨_, hxs, he.symm⟩)
      rw [List.getElem?_set_ne hne]
      exact ih h.of_concat hxs

/-- A slot is empty exactly as long as no value has its key. -/
theorem Fits.getElem?_fill_none {xs : List (Nat × α)} (h : Fits n xs) (hi : i < n) :
    (fill (List.replicate n none) xs)[i]? = some none ↔ i ∉ xs.map Prod.fst := by
  constructor
  · intro he hm
    obtain ⟨⟨k, a⟩, hx, rfl⟩ := List.mem_map.mp hm
    rw [Fits.getElem?_fill (by simpa using h) hx] at he
    cases he
  · intro hn
    rw [getElem?_fill_of_not_mem _ _ hn]
    simp [hi]

theorem Fits.mem_of_getElem? {xs : List (Nat × α)} (h : Fits n xs)
    (hi : (fill (List.replicate n none) xs)[i]? = some (some a)) : (i, a) ∈ xs := by
  by_cases hm : i ∈ xs.map Prod.fst
  · obtain ⟨⟨k, b⟩, hx, rfl⟩ := List.mem_map.mp hm
    rw [Fits.getElem?_fill (by simpa using h) hx] at hi
    cases hi
    exact hx
  · rw [getElem?_fill_of_not_mem _ _ hm] at hi
    simp [List.getElem?_replicate] at hi

/-- The table does not depend on the order in which it was filled. -/
theorem Fits.fill_perm {xs ys : List (Nat × α)} (h : Fits n xs) (hp : xs.Perm ys) :
    fill (List.replicate n none) xs = fill (List.replicate n none) ys := by
  apply List.ext_getElem?
  intro i
  by_cases hm : i ∈ xs.map Prod.fst
  · obtain ⟨⟨k, a⟩, hx, rfl⟩ := List.mem_map.mp hm
    rw [Fits.getElem?_fill (by simpa using h) hx,
      Fits.getElem?_fill (by simpa using h.perm hp) (hp.mem_iff.mp hx)]
  · have hm' : i ∉ ys.map Prod.fst := fun hy => hm ((hp.map Prod.fst).mem_iff.mpr hy)
    rw [getElem?_fill_of_not_mem _ _ hm, getElem?_fill_of_not_mem _ _ hm']

/-- The table is full exactly when there is a value for every slot. -/
theorem Fits.all_isSome_iff {xs : List (Nat × α)} (h : Fits n xs) :
    (fill (List.replicate n none) xs).all Option.isSome = true ↔ xs.length = n := by
  rw [List.all_eq_true]
  constructor
  · intro ha
    by_contra hl
    obtain ⟨i, hi, hn⟩ := Fits.exists_free (Nat.lt_of_le_of_ne h.length_le hl)
    have he := (h.getElem?_fill_none hi).mpr hn
    exact absurd (ha none (List.mem_of_getElem? he)) (by simp)
  · intro hl slot hs
    obtain ⟨i, hi⟩ := List.mem_iff_getElem?.mp hs
    have hlt : i < n := by simpa using (List.getElem?_eq_some_iff.mp hi).1
    cases slot with
    | some a => rfl
    | none =>
      have hn := (h.getElem?_fill_none hlt).mp hi
      exact absurd ((h.perm_range hl).mem_iff.mpr (List.mem_range.mpr hlt)) hn

theorem total_set (w : α → Nat) {slots : List (Option α)} (h : slots[i]? = some none) :
    total w (slots.set i (some a)) = total w slots + w a := by
  induction slots generalizing i with
  | nil => simp at h
  | cons slot slots ih =>
    cases i with
    | zero =>
      simp only [List.getElem?_cons_zero, Option.some.injEq] at h
      subst h
      simp [total, Nat.add_comm]
    | succ i =>
      rw [List.getElem?_cons_succ] at h
      have ht := ih h
      simp only [total] at ht
      simp only [total, List.set_cons_succ, List.map_cons, List.sum_cons, ht]
      omega

theorem Fits.total_fill (w : α → Nat) {xs : List (Nat × α)} (h : Fits n xs) :
    total w (fill (List.replicate n none) xs) = (xs.map (fun x => w x.2)).sum := by
  induction xs using List.reverseRecOn with
  | nil => simp [total]
  | append_singleton xs x ih =>
    have hempty := (h.of_concat.getElem?_fill_none (h.lt x (by simp))).mpr h.not_mem_of_concat
    rw [fill_concat, total_set w hempty, ih h.of_concat]
    simp

end Slots
