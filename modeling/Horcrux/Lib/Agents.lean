import Mathlib.Data.List.Perm.Basic
import Mathlib.Order.WellFounded

namespace Agents

variable {A S : Type*} {act : A → S → S → Prop} {inv : S → Prop}

/-- The agents of `as` move one after the other and take `s` to `t`. -/
inductive Schedule (act : A → S → S → Prop) : List A → S → S → Prop
  | nil : Schedule act [] s s
  | cons : act a s t → Schedule act as t u → Schedule act (a :: as) s u

/-- No agent can move. -/
def Stuck (act : A → S → S → Prop) (s : S) : Prop := ∀ a t, ¬ act a s t

/-- Every agent is deterministic, and a move of one agent neither takes away nor
changes a move of another one. -/
structure Independent (act : A → S → S → Prop) (inv : S → Prop) : Prop where
  keeps : inv s → act a s t → inv t
  det : inv s → act a s t → act a s u → t = u
  commute : inv s → a ≠ b → act a s t → act b s u → ∃ v, act b t v ∧ act a u v

theorem Schedule.single (h : act a s t) : Schedule act [a] s t := .cons h .nil

theorem Schedule.append (h : Schedule act as s t) (h' : Schedule act bs t u) :
    Schedule act (as ++ bs) s u := by
  induction h with
  | nil => exact h'
  | cons ha _ ih => exact .cons ha (ih h')

theorem exists_cons {P : S → Prop} (h : act a s t) (hr : ∃ u, Schedule act as t u ∧ P u) :
    ∃ u, Schedule act (a :: as) s u ∧ P u := by
  obtain ⟨u, hs, hu⟩ := hr
  exact ⟨u, .cons h hs, hu⟩

/-- What one move keeps, a whole schedule keeps. -/
theorem Schedule.keeps {P : S → Prop} (h : Schedule act as s t)
    (hk : ∀ a ∈ as, ∀ s t, P s → act a s t → P t) (hs : P s) : P t := by
  induction h with
  | nil => exact hs
  | cons ha _ ih =>
    exact ih (fun a hm => hk a (List.mem_cons_of_mem _ hm)) (hk _ List.mem_cons_self _ _ hs ha)

/-- A move that is not the first of a complete schedule can be pulled to its front. -/
theorem Independent.pull (hi : Independent act inv) (hs : inv s)
    (h : Schedule act as s t) (ht : Stuck act t) (hb : act b s u) :
    ∃ cs, as.Perm (b :: cs) ∧ Schedule act cs u t := by
  induction h generalizing u with
  | nil => exact False.elim (ht _ _ hb)
  | @cons a s s' as' t ha hr ih =>
    by_cases he : a = b
    · subst he
      obtain rfl := hi.det hs ha hb
      exact ⟨as', List.Perm.refl _, hr⟩
    · obtain ⟨v, hbv, hav⟩ := hi.commute hs he ha hb
      obtain ⟨cs, hp, hc⟩ := ih (hi.keeps hs ha) ht hbv
      exact ⟨a :: cs, (hp.cons a).trans (List.Perm.swap _ _ _), .cons hav hc⟩

/-- Random descent: every partial schedule extends to the given complete one, up to
the order of the moves. -/
theorem Independent.descent (hi : Independent act inv) (hs : inv s)
    (h : Schedule act as s t) (ht : Stuck act t) (hb : Schedule act bs s u) :
    ∃ cs, as.Perm (bs ++ cs) ∧ Schedule act cs u t := by
  induction hb generalizing as with
  | nil => exact ⟨as, List.Perm.refl _, h⟩
  | cons hb _ ih =>
    obtain ⟨cs, hp, hc⟩ := hi.pull hs h ht hb
    obtain ⟨ds, hq, hd⟩ := ih (hi.keeps hs hb) hc
    exact ⟨ds, hp.trans (hq.cons _), hd⟩

/-- All complete schedules from one state end in one state. -/
theorem Independent.unique (hi : Independent act inv) (hs : inv s)
    (h : Schedule act as s t) (ht : Stuck act t) (h' : Schedule act bs s u)
    (hu : Stuck act u) : t = u := by
  obtain ⟨cs, _, hc⟩ := hi.descent hs h ht h'
  cases hc with
  | nil => rfl
  | cons hm _ => exact False.elim (hu _ _ hm)

/-- Where a complete schedule exists, each agent alone comes to rest. -/
theorem Independent.exists_rest (hi : Independent act inv) (hs : inv s)
    (h : Schedule act as s t) (ht : Stuck act t) (b : A) :
    ∃ n u, Schedule act (List.replicate n b) s u ∧ ∀ v, ¬ act b u v := by
  induction hl : as.length generalizing as s with
  | zero =>
    cases List.eq_nil_of_length_eq_zero hl
    cases h
    exact ⟨0, _, .nil, ht b⟩
  | succ l ih =>
    by_cases hm : ∃ u, act b s u
    · obtain ⟨u, hb⟩ := hm
      obtain ⟨cs, hp, hc⟩ := hi.pull hs h ht hb
      have hlen : cs.length = l := by
        have := hp.length_eq
        rw [List.length_cons] at this
        omega
      obtain ⟨n, v, hn, hv⟩ := ih (hi.keeps hs hb) hc hlen
      exact ⟨n + 1, v, .cons hb hn, hv⟩
    · exact ⟨0, s, .nil, fun u hb => hm ⟨u, hb⟩⟩

/-- From `n` on `inv` holds until `goal` does, which it comes to. -/
def Until (inv goal : ℕ → Prop) (n : ℕ) : Prop :=
  ∃ n', n ≤ n' ∧ goal n' ∧ ∀ i, n ≤ i → i ≤ n' → inv i

namespace Until
variable {inv inv' goal goal' : ℕ → Prop} {n : ℕ}

theorem now (hinv : inv n) (hg : goal n) : Until inv goal n :=
  ⟨n, le_refl n, hg, fun _ h h' => le_antisymm h h' ▸ hinv⟩

theorem next (hinv : inv n) (h : Until inv goal (n + 1)) : Until inv goal n := by
  obtain ⟨n', hle, hg, hall⟩ := h
  refine ⟨n', Nat.le_of_succ_le hle, hg, fun i hi hi' => ?_⟩
  rcases Nat.eq_or_lt_of_le hi with rfl | hlt
  · exact hinv
  · exact hall i hlt hi'

theorem reached (h : Until inv goal n) : ∃ n', n ≤ n' ∧ goal n' :=
  h.imp fun _ h => ⟨h.1, h.2.1⟩

theorem mono (h : Until inv goal n) (hinv : ∀ i, inv i → inv' i) : Until inv' goal n := by
  obtain ⟨n', hle, hg, hall⟩ := h
  exact ⟨n', hle, hg, fun i hi hi' => hinv i (hall i hi hi')⟩

/-- One goal leads to the other. -/
theorem trans (h : Until inv goal n) (h' : ∀ i, inv i → goal i → Until inv goal' i) :
    Until inv goal' n := by
  obtain ⟨n₁, hle, hg, hall⟩ := h
  obtain ⟨n₂, hle', hg', hall'⟩ := h' n₁ (hall n₁ hle (le_refl _)) hg
  refine ⟨n₂, hle.trans hle', hg', fun i hi hi' => ?_⟩
  rcases Nat.le_total i n₁ with h₁ | h₁
  · exact hall i hi h₁
  · exact hall' i h₁ hi'

end Until

/-- What never takes a run away from its goal, and again and again brings it nearer, gets it
there. -/
theorem eventually {α : Type*} [Preorder α] [WellFoundedLT α] (rank : ℕ → α)
    (inv helpful : ℕ → Prop) {goal : ℕ → Prop} (hfair : ∀ n, ∃ n', n ≤ n' ∧ helpful n')
    (h : ∀ n, inv n → goal n ∨
      (inv (n + 1) ∧ rank (n + 1) ≤ rank n ∧ (helpful n → rank (n + 1) < rank n)))
    (hn : inv n) : Until inv goal n := by
  induction hr : rank n using WellFoundedLT.induction generalizing n with
  | ind a ih =>
    have hstep : ∀ i n, inv n → rank n ≤ a → helpful (n + i) → Until inv goal n := by
      intro i
      induction i with
      | zero =>
        intro n hinv hle hhelp
        rcases h n hinv with hg | ⟨hinv', _, hlt⟩
        · exact .now hinv hg
        · exact .next hinv (ih _ ((hlt hhelp).trans_le hle) hinv' rfl)
      | succ i ih' =>
        intro n hinv hle hhelp
        rcases h n hinv with hg | ⟨hinv', hle', _⟩
        · exact .now hinv hg
        · exact .next hinv (ih' _ hinv' (hle'.trans hle) (Nat.succ_add_eq_add_succ n i ▸ hhelp))
    obtain ⟨n', hle, hhelp⟩ := hfair n
    obtain ⟨i, rfl⟩ := Nat.exists_eq_add_of_le hle
    exact hstep i n hn hr.le hhelp

/-- From where the agents can always come back, they can go on for ever. -/
theorem exists_endless (inv : S → Prop)
    (h : ∀ s, inv s → ∃ a as t, Schedule act (a :: as) s t ∧ inv t)
    (hs : Schedule act as s t) (ht : inv t) :
    ∃ (run : ℕ → S) (moves : ℕ → A), run 0 = s ∧ ∀ n, act (moves n) (run n) (run (n + 1)) := by
  let back := fun s => ∃ as t, Schedule act as s t ∧ inv t
  have hmove : ∀ s : { s // back s }, ∃ (a : A) (t : { s // back s }), act a s t := by
    have hcons : ∀ {a as s t}, Schedule act (a :: as) s t → inv t →
        ∃ (a : A) (t : { s // back s }), act a s t := by
      intro a as s t hs ht
      cases hs with
      | cons ha hs => exact ⟨a, ⟨_, _, _, hs, ht⟩, ha⟩
    rintro ⟨s, as, t, hs, ht⟩
    cases hs with
    | nil =>
      obtain ⟨a, as, u, hs, hu⟩ := h s ht
      exact hcons hs hu
    | cons ha hs => exact hcons (.cons ha hs) ht
  choose move next hact using hmove
  let run : ℕ → { s // back s } := Nat.rec ⟨s, as, t, hs, ht⟩ fun _ s => next s
  exact ⟨fun n => (run n).1, fun n => move (run n), rfl, fun n => hact (run n)⟩

/-- A run that goes on for ever can be led up to. -/
theorem Schedule.prepend {run : ℕ → S} {moves : ℕ → A} (h : Schedule act as s t)
    (h0 : run 0 = t) (hr : ∀ n, act (moves n) (run n) (run (n + 1))) :
    ∃ (run' : ℕ → S) (moves' : ℕ → A), run' 0 = s ∧
      (∀ n, act (moves' n) (run' n) (run' (n + 1))) ∧
      ∀ n, run' (as.length + n) = run n ∧ moves' (as.length + n) = moves n := by
  induction h with
  | nil => exact ⟨run, moves, h0, hr, fun n => by simp⟩
  | @cons a s t as u ha _ ih =>
    obtain ⟨run', moves', h0', hr', htail⟩ := ih h0
    refine ⟨fun n => n.casesOn s run', fun n => n.casesOn a moves', rfl, fun n => ?_, fun n => ?_⟩
    · cases n with
      | zero =>
        show act a s (run' 0)
        rwa [h0']
      | succ n => exact hr' n
    · rw [List.length_cons, Nat.succ_add]
      exact htail n

section Refinement
variable {B C T U : Type*} {act' : B → T → T → Prop} {act'' : C → U → U → Prop}
  {R : S → T → Prop} {Q : T → U → Prop}

/-- Every move of the lower system is some moves of the upper one, or none. -/
def Refines (act : A → S → S → Prop) (act' : B → T → T → Prop) (R : S → T → Prop) : Prop :=
  ∀ a s s' t, R s t → act a s s' → ∃ bs t', Schedule act' bs t t' ∧ R s' t'

theorem Refines.run (h : Refines act act' R) (hr : R s t) (hs : Schedule act as s s') :
    ∃ bs t', Schedule act' bs t t' ∧ R s' t' := by
  induction hs generalizing t with
  | nil => exact ⟨[], t, .nil, hr⟩
  | cons ha _ ih =>
    obtain ⟨bs, t₁, hb, hr₁⟩ := h _ _ _ _ hr ha
    obtain ⟨cs, t₂, hc, hr₂⟩ := ih hr₁
    exact ⟨bs ++ cs, t₂, hb.append hc, hr₂⟩

/-- Refinements compose. -/
theorem Refines.trans (h : Refines act act' R) (h' : Refines act' act'' Q) :
    Refines act act'' fun s u => ∃ t, R s t ∧ Q t u := by
  intro a s s' u hr ha
  obtain ⟨t, hr, hq⟩ := hr
  obtain ⟨bs, t', hb, hr'⟩ := h a s s' t hr ha
  obtain ⟨cs, u', hc, hq'⟩ := h'.run hq hb
  exact ⟨cs, u', hc, t', hr', hq'⟩

end Refinement

end Agents
