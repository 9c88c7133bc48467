import Mathlib.Data.Multiset.AddSub
import Mathlib.Data.Multiset.Count
import Mathlib.Logic.Function.Basic

namespace SharedPtr

/-- Objects that shared pointers own, with their use counts. `none` is memory without an
object. -/
structure Heap (α : Type*) where
  object : Nat → Option α
  useCount : Nat → Nat

namespace Heap
variable {α : Type*} {m : Heap α} {refs : Multiset Nat} {ps : List Nat}

def empty : Heap α := ⟨fun _ => none, fun _ => 0⟩

/-- A first pointer to a new object. -/
def make (m : Heap α) (p : Nat) (x : α) : Heap α :=
  ⟨Function.update m.object p (some x), Function.update m.useCount p 1⟩

def copy (m : Heap α) (p : Nat) : Heap α :=
  { m with useCount := Function.update m.useCount p (m.useCount p + 1) }

/-- The last pointer takes the object along. -/
def drop (m : Heap α) (p : Nat) : Heap α :=
  if m.useCount p = 1 then ⟨Function.update m.object p none, Function.update m.useCount p 0⟩
  else { m with useCount := Function.update m.useCount p (m.useCount p - 1) }

/-- A closure is copied, with all the pointers that it has captured. -/
def copies (m : Heap α) (ps : List Nat) : Heap α := ps.foldl copy m

def drops (m : Heap α) (ps : List Nat) : Heap α := ps.foldl drop m

/-- The object is changed in place. -/
def write (m : Heap α) (p : Nat) (x : α) : Heap α :=
  { m with object := Function.update m.object p (some x) }

/-- The pointers in use are those of `refs`: each object is counted right, and exactly the
objects that one of them points to are there. -/
structure Counted (m : Heap α) (refs : Multiset Nat) : Prop where
  count : ∀ p, m.useCount p = refs.count p
  alive : ∀ p, (m.object p).isSome = true ↔ p ∈ refs

theorem counted_empty : Counted (empty : Heap α) 0 := ⟨by simp [empty], by simp [empty]⟩

theorem Counted.object_eq_none (h : Counted m refs) (hp : p ∉ refs) : m.object p = none :=
  Option.not_isSome_iff_eq_none.mp (mt (h.alive p).mp hp)

theorem Counted.make (h : Counted m refs) (hp : p ∉ refs) (x : α) :
    Counted (m.make p x) (p ::ₘ refs) where
  count q := by
    by_cases hq : q = p
    · subst hq
      simp [Heap.make, Multiset.count_eq_zero_of_notMem hp]
    · simp [Heap.make, hq, h.count q]
  alive q := by
    by_cases hq : q = p
    · subst hq
      simp [Heap.make]
    · simp [Heap.make, hq, h.alive q]

theorem Counted.copy (h : Counted m refs) (hp : p ∈ refs) : Counted (m.copy p) (p ::ₘ refs) where
  count q := by
    by_cases hq : q = p
    · subst hq
      simp [Heap.copy, h.count q]
    · simp [Heap.copy, hq, h.count q]
  alive q := by
    rw [Heap.copy, h.alive q, Multiset.mem_cons]
    exact ⟨.inr, fun hq => hq.elim (fun he => he ▸ hp) id⟩

theorem Counted.drop (h : Counted m (p ::ₘ refs)) : Counted (m.drop p) refs := by
  have hp : m.useCount p = refs.count p + 1 := by rw [h.count p, Multiset.count_cons_self]
  unfold Heap.drop
  split
  · rename_i hone
    have hmem : p ∉ refs := by
      rw [← Multiset.count_eq_zero]
      omega
    constructor
    · intro q
      by_cases hq : q = p
      · subst hq
        simp [Multiset.count_eq_zero_of_notMem hmem]
      · simp [hq, h.count q]
    · intro q
      by_cases hq : q = p
      · subst hq
        simp [hmem]
      · simp [hq, h.alive q]
  · rename_i hmore
    have hmem : p ∈ refs := by
      rw [← Multiset.count_pos]
      omega
    constructor
    · intro q
      by_cases hq : q = p
      · subst hq
        simp [hp]
      · simp [hq, h.count q]
    · intro q
      rw [h.alive q, Multiset.mem_cons]
      exact ⟨fun hq => hq.elim (fun he => he ▸ hmem) id, .inr⟩

/-- An object with another pointer to it survives. -/
theorem Counted.object_drop (h : Counted m (p ::ₘ refs)) (hq : q ∈ refs) :
    (m.drop p).object q = m.object q := by
  unfold Heap.drop
  split
  · rename_i hone
    have hp : refs.count p = 0 := by
      have hc := h.count p
      rw [Multiset.count_cons_self] at hc
      omega
    have hne : q ≠ p := by
      intro he
      exact Multiset.count_eq_zero.mp hp (he ▸ hq)
    exact Function.update_of_ne hne _ _
  · rfl

theorem Counted.copies (h : Counted m refs) (ps : List Nat) (hp : ∀ p ∈ ps, p ∈ refs) :
    Counted (m.copies ps) ((ps : Multiset Nat) + refs) := by
  induction ps generalizing m refs with
  | nil => simpa [Heap.copies] using h
  | cons p ps ih =>
    have hrest := ih (h.copy (hp p List.mem_cons_self)) fun q hq =>
      Multiset.mem_cons_of_mem (hp q (List.mem_cons_of_mem _ hq))
    rwa [← Multiset.cons_coe, Multiset.cons_add, ← Multiset.add_cons]

@[simp] theorem object_copies (m : Heap α) (ps : List Nat) :
    (m.copies ps).object = m.object := by
  induction ps generalizing m with
  | nil => rfl
  | cons p ps ih => exact ih (m.copy p)

theorem Counted.drops (h : Counted m ((ps : Multiset Nat) + refs)) : Counted (m.drops ps) refs := by
  induction ps generalizing m with
  | nil => simpa [Heap.drops] using h
  | cons p ps ih =>
    rw [← Multiset.cons_coe, Multiset.cons_add] at h
    exact ih h.drop

theorem Counted.object_drops (h : Counted m ((ps : Multiset Nat) + refs)) (hq : q ∈ refs) :
    (m.drops ps).object q = m.object q := by
  induction ps generalizing m with
  | nil => rfl
  | cons p ps ih =>
    rw [← Multiset.cons_coe, Multiset.cons_add] at h
    exact (ih h.drop).trans (h.object_drop (Multiset.mem_add.mpr (.inr hq)))

theorem Counted.write (h : Counted m refs) (hp : p ∈ refs) (x : α) :
    Counted (m.write p x) refs where
  count := h.count
  alive q := by
    by_cases hq : q = p
    · subst hq
      simp [Heap.write, hp]
    · simp [Heap.write, hq, h.alive q]

end Heap
end SharedPtr
