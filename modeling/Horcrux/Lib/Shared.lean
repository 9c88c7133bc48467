import Horcrux.Lib.Agents
import Mathlib.Logic.Function.Basic

namespace Agents

/-- Components that have a state of their own each, and one state that they share. -/
structure Shared (ι L G : Type*) where
  shared : G
  own : ι → L

namespace Shared
variable {ι A L G : Type*} [DecidableEq ι] {act : ι → A → L × G → L × G → Prop}
  {inv : ι → L → Prop} {effect : ι → A → L → G → G} {s t : Shared ι L G}

/-- Component `x.1` makes the move `x.2`, as it would with the shared state to itself. -/
def Step (act : ι → A → L × G → L × G → Prop) (x : ι × A) (s t : Shared ι L G) : Prop :=
  ∃ y, act x.1 x.2 (s.own x.1, s.shared) y ∧ t = ⟨y.2, Function.update s.own x.1 y.1⟩

/-- What a component does depends on its own state alone, also what it does to the shared
state, and there the moves of different components commute. -/
structure Detached (act : ι → A → L × G → L × G → Prop) (inv : ι → L → Prop)
    (effect : ι → A → L → G → G) : Prop where
  shared : act i a (l, g) (l', g') → g' = effect i a l g
  any : act i a (l, g) (l', g') → ∀ h, act i a (l, h) (l', effect i a l h)
  commute : i ≠ j → inv i l → inv j m → ∀ g,
    effect j b m (effect i a l g) = effect i a l (effect j b m g)

/-- Components that are independent inside and detached from each other are independent
altogether. -/
theorem independent (each : ∀ i, Independent (act i) fun x => inv i x.1)
    (hd : Detached act inv effect) :
    Independent (Step act) fun s => ∀ i, inv i (s.own i) where
  keeps := by
    intro s x t hs h i
    obtain ⟨y, hy, rfl⟩ := h
    by_cases hi : i = x.1
    · subst hi
      simpa using (each x.1).keeps (hs x.1) hy
    · simpa [Function.update_of_ne hi] using hs i
  det := by
    intro s x t u hs ht hu
    obtain ⟨y, hy, rfl⟩ := ht
    obtain ⟨z, hz, rfl⟩ := hu
    rw [(each x.1).det (hs x.1) hy hz]
  commute := by
    intro s x z t u hs hne ht hu
    obtain ⟨i, a⟩ := x
    obtain ⟨j, b⟩ := z
    obtain ⟨⟨l, g⟩, hl, rfl⟩ := ht
    obtain ⟨⟨m, h⟩, hm, rfl⟩ := hu
    dsimp only at hl hm ⊢
    by_cases hij : i = j
    · subst hij
      have hab : a ≠ b := fun he => hne (by rw [he])
      obtain ⟨v, hv, hv'⟩ := (each i).commute (hs i) hab hl hm
      exact ⟨⟨v.2, Function.update s.own i v.1⟩, ⟨v, by simpa using hv, by simp⟩,
        ⟨v, by simpa using hv', by simp⟩⟩
    · -- each of the two makes its move on what the other has left
      obtain rfl := hd.shared hl
      obtain rfl := hd.shared hm
      have hj : act j b (Function.update s.own i l j, effect i a (s.own i) s.shared)
          (m, effect j b (s.own j) (effect i a (s.own i) s.shared)) := by
        rw [Function.update_of_ne (Ne.symm hij)]
        exact hd.any hm _
      have hi : act i a (Function.update s.own j m i, effect j b (s.own j) s.shared)
          (l, effect i a (s.own i) (effect j b (s.own j) s.shared)) := by
        rw [Function.update_of_ne hij]
        exact hd.any hl _
      refine ⟨_, ⟨_, hj, rfl⟩, ⟨_, hi, ?_⟩⟩
      rw [hd.commute hij (hs i) (hs j)]
      dsimp only
      rw [Function.update_comm hij]

/-- A run of one component is a run of all. -/
theorem lift (act : ι → A → L × G → L × G → Prop) (s : Shared ι L G)
    (h : Schedule (act i) as (s.own i, s.shared) y) :
    Schedule (Step act) (as.map fun a => (i, a)) s ⟨y.2, Function.update s.own i y.1⟩ := by
  generalize hx : (s.own i, s.shared) = x at h
  induction h generalizing s with
  | nil =>
    subst hx
    simpa using .nil
  | @cons a x z as y hz _ ih =>
    subst hx
    have hrest := ih ⟨z.2, Function.update s.own i z.1⟩ (by simp)
    simp only [Function.update_idem] at hrest
    exact .cons ⟨z, hz, rfl⟩ hrest

end Shared
end Agents
