import Mathlib.Data.List.Forall2
import Mathlib.Data.Multiset.Filter

namespace Lists

variable {α β γ : Type*}

theorem mapM_eq_some {f : α → Option β} {g : α → β} {xs : List α}
    (h : ∀ x ∈ xs, f x = some (g x)) : xs.mapM f = some (xs.map g) := by
  induction xs with
  | nil => rfl
  | cons x xs ih =>
    rw [List.mapM_cons, h x List.mem_cons_self, ih fun y hy => h y (List.mem_cons_of_mem _ hy)]
    rfl

theorem mapM_eq_none {f : α → Option β} {xs : List α} (hx : x ∈ xs) (h : f x = none) :
    xs.mapM f = none := by
  induction xs with
  | nil => cases hx
  | cons y ys ih =>
    rw [List.mapM_cons]
    rcases List.mem_cons.mp hx with rfl | hx
    · rw [h]
      rfl
    · rw [ih hx]
      cases f y <;> rfl

theorem length_of_mapM {f : α → Option β} {xs : List α} {ys : List β}
    (h : xs.mapM f = some ys) : ys.length = xs.length := by
  induction xs generalizing ys with
  | nil =>
    cases h
    rfl
  | cons x xs ih =>
    rw [List.mapM_cons] at h
    obtain ⟨y, _, h⟩ := Option.bind_eq_some_iff.mp h
    obtain ⟨zs, hz, h⟩ := Option.bind_eq_some_iff.mp h
    cases h
    rw [List.length_cons, List.length_cons, ih hz]

theorem foldlM_append {f : α → Option (List β)} {g : α → List β} {xs : List α}
    (h : ∀ x ∈ xs, f x = some (g x)) (acc : List β) :
    xs.foldlM (fun acc x => do
      let b ← f x
      pure (acc ++ b)) acc = some (acc ++ xs.flatMap g) := by
  induction xs generalizing acc with
  | nil => simp
  | cons x xs ih =>
    rw [List.foldlM_cons, h x List.mem_cons_self]
    have hrest := ih (fun y hy => h y (List.mem_cons_of_mem _ hy)) (acc ++ g x)
    rw [List.flatMap_cons, ← List.append_assoc]
    exact hrest

/-- A step of a fold that finds more finds what it found before. -/
theorem foldlM_mono {f g : β → α → Option β} (hfg : ∀ acc x y, f acc x = some y → g acc x = some y)
    {xs : List α} (h : xs.foldlM f acc = some r) : xs.foldlM g acc = some r := by
  induction xs generalizing acc with
  | nil => exact h
  | cons x xs ih =>
    rw [List.foldlM_cons] at h ⊢
    obtain ⟨y, hy, h⟩ := Option.bind_eq_some_iff.mp h
    rw [hfg acc x y hy]
    exact ih h

theorem forall₂_mapIdx {R : β → γ → Prop} {f : Nat → α → β} {g : Nat → α → γ} {xs : List α}
    (h : ∀ i, ∀ x ∈ xs, R (f i x) (g i x)) : List.Forall₂ R (xs.mapIdx f) (xs.mapIdx g) := by
  induction xs generalizing f g with
  | nil => exact .nil
  | cons x xs ih =>
    rw [List.mapIdx_cons, List.mapIdx_cons]
    exact .cons (h 0 x List.mem_cons_self)
      (ih fun i y hy => h (i + 1) y (List.mem_cons_of_mem _ hy))

theorem eq_map_some {slots : List (Option α)} (h : slots.all Option.isSome = true) :
    ∃ cs : List α, slots = cs.map some := by
  induction slots with
  | nil => exact ⟨[], rfl⟩
  | cons slot slots ih =>
    rw [List.all_cons, Bool.and_eq_true] at h
    obtain ⟨c, rfl⟩ := Option.isSome_iff_exists.mp h.1
    obtain ⟨cs, rfl⟩ := ih h.2
    exact ⟨c :: cs, rfl⟩

theorem findIdx_append_of_mem {p : α → Bool} {q : List α} (h : ∃ e ∈ q, p e = true)
    (q' : List α) : (q ++ q').findIdx p = q.findIdx p := by
  rw [List.findIdx_append, if_pos (List.findIdx_lt_length_of_exists h)]

theorem exists_mem_append {p : α → Bool} {q : List α} (h : ∃ e ∈ q, p e = true)
    (q' : List α) : ∃ e ∈ q ++ q', p e = true := by
  obtain ⟨e, he, hp⟩ := h
  exact ⟨e, List.mem_append_left _ he, hp⟩

theorem idxOf_erase_le [DecidableEq α] {xs : List α} (h : x ≠ y) :
    (xs.erase y).idxOf x ≤ xs.idxOf x := by
  induction xs with
  | nil => exact le_refl _
  | cons z xs ih =>
    by_cases hy : z = y
    · subst hy
      rw [List.erase_cons_head, List.idxOf_cons_ne xs (Ne.symm h)]
      exact Nat.le_succ _
    · rw [List.erase_cons_tail (by simpa using hy)]
      by_cases hx : z = x
      · rw [List.idxOf_cons_eq _ hx]
        exact Nat.zero_le _
      · rw [List.idxOf_cons_ne _ hx, List.idxOf_cons_ne _ hx]
        exact Nat.succ_le_succ ih

theorem filterMap_update {f g : α → Option β} {is : Multiset α} {k : α} {d : β}
    (hn : is.Nodup) (hk : k ∈ is) (h : ∀ i, i ≠ k → g i = f i) (hf : f k = none)
    (hg : g k = some d) : is.filterMap g = d ::ₘ is.filterMap f := by
  obtain ⟨rest, rfl⟩ := Multiset.exists_cons_of_mem hk
  have hnot := (Multiset.nodup_cons.mp hn).1
  rw [Multiset.filterMap_cons_some _ _ _ hg, Multiset.filterMap_cons_none _ _ hf]
  obtain ⟨l, rfl⟩ := Quot.exists_rep rest
  have hcongr : l.filterMap g = l.filterMap f :=
    List.filterMap_congr fun i hi => h i (by rintro rfl; exact hnot hi)
  exact congrArg (fun l : List β => d ::ₘ (l : Multiset β)) hcongr

end Lists
