import Mathlib.Logic.Function.Basic

namespace WriteOnce

section Run
variable {S T C R : Type*} {op : S → C → R × S}

/-- Calls made one after the other: what each of them returned, and the state afterwards. -/
def run (op : S → C → R × S) (s : S) : List C → List R × S
  | [] => ([], s)
  | c :: cs => ((op s c).1 :: (run op (op s c).2 cs).1, (run op (op s c).2 cs).2)

theorem run_append (s : S) (cs ds : List C) :
    (run op s (cs ++ ds)).2 = (run op (run op s cs).2 ds).2 := by
  induction cs generalizing s with
  | nil => rfl
  | cons c cs ih => rw [List.cons_append, run, ih, run]

/-- What a call returns depends on the calls before it only. -/
theorem getElem?_run (s : S) (cs : List C) (k : Nat) :
    (run op s cs).1[k]? = cs[k]?.map fun c => (op (run op s (cs.take k)).2 c).1 := by
  induction cs generalizing s k with
  | nil => simp [run]
  | cons c cs ih =>
    cases k with
    | zero => simp [run]
    | succ k =>
      rw [run, List.getElem?_cons_succ, ih, List.getElem?_cons_succ, List.take_succ_cons, run]

/-- One call more. -/
theorem run_take_succ (s : S) {cs : List C} (hk : cs[k]? = some c) :
    (run op s (cs.take (k + 1))).2 = (op (run op s (cs.take k)).2 c).2 := by
  induction cs generalizing s k with
  | nil => cases hk
  | cons d cs ih =>
    cases k with
    | zero =>
      cases hk
      rfl
    | succ k =>
      rw [List.getElem?_cons_succ] at hk
      rw [List.take_succ_cons, run, ih _ hk, List.take_succ_cons, run]

/-- A run refines the abstract one when each call does. -/
theorem run_refines {op' : T → C → R × T} {abs : S → T}
    (h : ∀ s c, op' (abs s) c = ((op s c).1, abs (op s c).2)) (s : S) (cs : List C) :
    run op' (abs s) cs = ((run op s cs).1, abs (run op s cs).2) := by
  induction cs generalizing s with
  | nil => rfl
  | cons c cs ih => rw [run, h, ih, run]

end Run

variable {K V : Type*} [DecidableEq K]

/-- A store that takes one value for each key that is open to it. -/
structure Store (K V : Type*) where
  get : K → Option V
  opens : K → Bool

def Store.put (s : Store K V) (call : V × K) : Bool × Store K V :=
  if (s.get call.2).isNone && s.opens call.2 then
    (true, { s with get := Function.update s.get call.2 (some call.1) })
  else (false, s)

/-- The value of the first call on `k` that returned true. -/
def firstAccepted (k : K) (calls : List (V × K)) (results : List Bool) : Option V :=
  ((calls.zip results).find? fun x => x.1.2 = k && x.2).map fun x => x.1.1

theorem firstAccepted_hit (v : V) (k : K) (calls : List (V × K)) (results : List Bool) :
    firstAccepted k ((v, k) :: calls) (true :: results) = some v := by
  simp [firstAccepted]

theorem firstAccepted_miss {call : V × K} (h : ¬ (call.2 = k ∧ r = true))
    (calls : List (V × K)) (results : List Bool) :
    firstAccepted k (call :: calls) (r :: results) = firstAccepted k calls results := by
  rw [firstAccepted, List.zip_cons_cons, List.find?_cons_of_neg (by simpa using h)]
  rfl

/-- The first value that is accepted for a key stays, and nothing else gets in. -/
theorem get_run (s : Store K V) (calls : List (V × K)) (k : K) :
    (run Store.put s calls).2.get k =
      (s.get k).or (firstAccepted k calls (run Store.put s calls).1) := by
  induction calls generalizing s with
  | nil => simp [run, firstAccepted]
  | cons call calls ih =>
    rw [run, ih]
    by_cases hput : ((s.get call.2).isNone && s.opens call.2) = true
    · rw [Store.put, if_pos hput]
      dsimp only
      by_cases hk : call.2 = k
      · subst hk
        rw [Bool.and_eq_true, Option.isNone_iff_eq_none] at hput
        rw [firstAccepted_hit call.1, hput.1, Function.update_self]
        rfl
      · rw [firstAccepted_miss fun h => hk h.1, Function.update_of_ne (Ne.symm hk)]
    · rw [Store.put, if_neg hput, firstAccepted_miss (by simp)]

/-- A value that was not there before came with a call. -/
theorem mem_of_get_run (s : Store K V) {calls : List (V × K)}
    (h : (run Store.put s calls).2.get k = some v) :
    s.get k = some v ∨ s.get k = none ∧ (v, k) ∈ calls := by
  rw [get_run, Option.or_eq_some_iff] at h
  refine h.imp_right fun hnew => ⟨hnew.1, ?_⟩
  obtain ⟨x, hx, hv⟩ := Option.map_eq_some_iff.mp hnew.2
  have hmem := (List.of_mem_zip (List.mem_of_find?_eq_some hx)).1
  have hkey := List.find?_some hx
  simp only [Bool.and_eq_true, decide_eq_true_eq] at hkey
  rwa [← hv, ← hkey.1]

/-- The keys that have a value in the end. -/
theorem isSome_get_run (s : Store K V) (calls : List (V × K)) (k : K) :
    ((run Store.put s calls).2.get k).isSome ↔
      (s.get k).isSome ∨ s.opens k = true ∧ k ∈ calls.map Prod.snd := by
  induction calls generalizing s with
  | nil => simp [run]
  | cons call calls ih =>
    rw [run, ih, Store.put]
    by_cases hput : ((s.get call.2).isNone && s.opens call.2) = true
    · rw [if_pos hput]
      by_cases hk : k = call.2
      · subst hk
        simp_all
      · simp [hk]
    · rw [if_neg hput]
      by_cases hk : k = call.2
      · subst hk
        cases hs : s.get call.2 <;> simp_all
      · simp [hk]

/-- Nothing is lost, and no key is opened or closed. -/
structure Store.Extends (s t : Store K V) : Prop where
  get : s.get k = some v → t.get k = some v
  opens : t.opens = s.opens

omit [DecidableEq K] in
theorem Store.Extends.refl (s : Store K V) : s.Extends s := ⟨id, rfl⟩

omit [DecidableEq K] in
theorem Store.Extends.trans {s t u : Store K V} (h : s.Extends t) (h' : t.Extends u) :
    s.Extends u :=
  ⟨fun hk => h'.get (h.get hk), h'.opens.trans h.opens⟩

theorem Store.extends_put (s : Store K V) (call : V × K) : s.Extends (s.put call).2 := by
  unfold Store.put
  split
  · rename_i hput
    refine ⟨?_, rfl⟩
    intro k v hk
    have hne : k ≠ call.2 := by
      rintro rfl
      simp [hk] at hput
    simpa [Function.update_of_ne hne] using hk
  · exact .refl s

theorem Store.extends_run (s : Store K V) (calls : List (V × K)) :
    s.Extends (run Store.put s calls).2 := by
  induction calls generalizing s with
  | nil => exact .refl s
  | cons call calls ih => exact (s.extends_put call).trans (ih _)

end WriteOnce
