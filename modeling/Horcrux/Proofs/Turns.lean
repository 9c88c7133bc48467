import Horcrux.Lib.Lists
import Horcrux.Proofs.Waiting
import Mathlib.Data.Prod.Lex

namespace Horcrux.Asio.Scheduler
variable {D O A R σ : Type} [DecidableEq D] {P : Program D O A R σ} {m m' : Scheduler D O R σ}

/-- The tries that are left for the types, at the most. -/
def triesLeft (q : OpType → List O) : List OpType → ℕ
  | [] => 0
  | j :: types => 1 + (q j).length + triesLeft q types

theorem triesLeft_le {q q' : OpType → List O} (h : ∀ j, (q' j).length ≤ (q j).length)
    (types : List OpType) : triesLeft q' types ≤ triesLeft q types := by
  induction types with
  | nil => exact le_refl _
  | cons j types ih =>
    have hj := h j
    simp only [triesLeft]
    omega

/-- What is left to do of the turn, and of its part. A try takes an operation or a type away. -/
def turnRank (m : Scheduler D O R σ) : ℕ ×ₗ ℕ :=
  match m.phase with
  | .performIo d _ types _ =>
    toLex (3, triesLeft (m.descriptors d).opQueue types)
  | .requests _ rest => toLex (2, 2 * rest.length)
  | .enqueue _ _ _ _ rest => toLex (2, 2 * rest.length + 1)
  | .idle => toLex (1, 0)
  | .asleep => toLex (0, 0)
  | .returned => toLex (0, 0)

theorem toLex_lt_of_class {a b c d : ℕ} (h : a < c) : toLex (a, b) < toLex (c, d) :=
  Prod.Lex.toLex_lt_toLex.mpr (.inl h)

theorem toLex_lt_of_part {a b d : ℕ} (h : b < d) : toLex (a, b) < toLex (a, d) :=
  Prod.Lex.toLex_lt_toLex.mpr (.inr ⟨rfl, h⟩)

omit [DecidableEq D] in
theorem turnRank_requests (h : m.phase = .requests b rest) :
    m.turnRank = toLex (2, 2 * rest.length) := by rw [turnRank, h]

omit [DecidableEq D] in
theorem turnRank_performIo (h : m.phase = .performIo d events types ops) :
    m.turnRank = toLex (3, triesLeft (m.descriptors d).opQueue types) := by rw [turnRank, h]

theorem setOps_shorter (hq : (m.descriptors d).opQueue j = o :: waiting) (b : Bool) (j' : OpType) :
    ((((m.setSpeculative d j b).setOps d j waiting).descriptors d).opQueue j').length ≤
      ((m.descriptors d).opQueue j').length := by
  rw [setOps_opQueue_apply]
  split
  · rename_i he
    rw [he.2, hq]
    exact Nat.le_succ _
  · rw [setSpeculative_opQueue]

/-- Every step brings a turn nearer to its end. -/
theorem Step.turn {call : Call D A R} (hs : Step P call m m') (hidle : m.phase ≠ .idle) :
    m'.turnRank < m.turnRank := by
  have hrequests : ∀ {b b' : Bool} {request : Request D O R} {rest : List (Request D O R)},
      m.phase = .requests b (request :: rest) → m'.phase = .requests b' rest →
      m'.turnRank < m.turnRank := by
    intro b b' request rest hphase hphase'
    rw [turnRank_requests hphase, turnRank_requests hphase']
    exact toLex_lt_of_part (by simp)
  have htries : ∀ {d : D} {events : Events} {types types' : List OpType} {ops ops' : List (O × R)},
      m.phase = .performIo d events types ops → m'.phase = .performIo d events types' ops' →
      triesLeft (m'.descriptors d).opQueue types' < triesLeft (m.descriptors d).opQueue types →
      m'.turnRank < m.turnRank := by
    intro d events types types' ops ops' hphase hphase' hlt
    rw [turnRank_performIo hphase, turnRank_performIo hphase']
    exact toLex_lt_of_part hlt
  cases hs with
  | post hphase | immediate hphase | immediateExhausted hphase | registerDescriptor hphase
  | deregisterDescriptor hphase | behind hphase => exact hrequests hphase rfl
  | untried hphase | tried hphase =>
    rw [turnRank_requests hphase]
    refine toLex_lt_of_part ?_
    rw [List.length_cons]
    omega
  | modify hphase | enqueue hphase =>
    rw [turnRank_requests (m := _) rfl, turnRank, hphase]
    exact toLex_lt_of_part (Nat.lt_succ_self _)
  | run hphase | noWork hphase | workCleanup hphase =>
    rw [turnRank_requests hphase]
    exact toLex_lt_of_class (by omega)
  | «return» hphase | sleep hphase | task hphase | complete hphase | descriptor hphase =>
    exact absurd hphase hidle
  | skip hphase =>
    refine htries hphase rfl ?_
    rw [triesLeft, enter_descriptors]
    omega
  | nothing hphase | notDone hphase =>
    refine htries hphase rfl ?_
    rw [triesLeft, enter_descriptors, setSpeculative_opQueue]
    omega
  | done hphase he hq =>
    refine htries hphase rfl ?_
    have hle := triesLeft_le (setOps_shorter hq true)
    rw [triesLeft, triesLeft, enter_descriptors, setOps_opQueue_apply, if_pos ⟨rfl, rfl⟩,
      hq, List.length_cons]
    exact Nat.add_lt_add_of_lt_of_le (by omega) (hle _)
  | exhausted hphase he hq =>
    refine htries hphase rfl ?_
    rw [triesLeft, enter_descriptors]
    have hle := triesLeft_le (setOps_shorter hq false)
    exact Nat.lt_of_le_of_lt (hle _) (by omega)
  | compensate hphase | first hphase =>
    rw [turnRank_performIo hphase]
    exact toLex_lt_of_class (by omega)

/-- The entry at the head of the queue has its turn. -/
def Taken (P : Program D O A R σ) (call : Call D A R) (m m' : Scheduler D O R σ) :
    Entry D O R → Prop
  | .task => ∃ blocking events, call = .wait blocking events
  | .descriptor d =>
    m'.phase = .performIo d (m.descriptors d).taskResult [.write, .read] []
  | .op o r => ∃ requests, P.complete m.state o r = some (m'.state, requests) ∧
    m'.phase = .requests true requests

/-- How far the first such entry is from its turn. -/
def queueRank (p : Entry D O R → Bool) (m : Scheduler D O R σ) : ℕ ×ₗ (ℕ ×ₗ ℕ) :=
  toLex (m.opQueue.findIdx p, m.turnRank)

omit [DecidableEq D] in
/-- The head of the queue is another entry, and goes. -/
theorem queueRank_pop {p : Entry D O R → Bool} {e : Entry D O R}
    (hq : m.opQueue = e :: rest) (hq' : ∃ q', m'.opQueue = rest ++ q') (he : p e = false)
    (h : ∃ e ∈ m.opQueue, p e = true) :
    (∃ e ∈ m'.opQueue, p e = true) ∧ queueRank p m' < queueRank p m := by
  obtain ⟨q', hq'⟩ := hq'
  have hrest : ∃ e ∈ rest, p e = true := by
    obtain ⟨x, hx, hp⟩ := h
    rw [hq] at hx
    rcases List.mem_cons.mp hx with rfl | hx
    · rw [he] at hp
      cases hp
    · exact ⟨x, hx, hp⟩
  rw [queueRank, queueRank, hq, hq']
  refine ⟨Lists.exists_mem_append hrest q', Prod.Lex.toLex_lt_toLex.mpr (.inl ?_)⟩
  rw [Lists.findIdx_append_of_mem hrest, List.findIdx_cons, he]
  exact Nat.lt_succ_self _

omit [DecidableEq D] in
/-- The queue is as it was, or longer. -/
theorem queueRank_append {p : Entry D O R → Bool} {q' : List (Entry D O R)}
    (hq' : m'.opQueue = m.opQueue ++ q') (hturn : m'.turnRank < m.turnRank)
    (h : ∃ e ∈ m.opQueue, p e = true) :
    (∃ e ∈ m'.opQueue, p e = true) ∧ queueRank p m' < queueRank p m := by
  rw [queueRank, queueRank, hq', Lists.findIdx_append_of_mem h]
  exact ⟨Lists.exists_mem_append h q', Prod.Lex.toLex_lt_toLex.mpr (.inr ⟨rfl, hturn⟩)⟩

/-- No step passes an entry by. -/
theorem Step.advances {call : Call D A R} {p : Entry D O R → Bool} (hs : Step P call m m')
    (h : ∃ e ∈ m.opQueue, p e = true) :
    (∃ e, p e = true ∧ Taken P call m m' e) ∨
      ((∃ e ∈ m'.opQueue, p e = true) ∧ queueRank p m' < queueRank p m) := by
  by_cases hidle : m.phase = .idle
  · have hover : ∀ {phase : Phase D O R}, (m.enter phase).turnRank < m.turnRank →
        (∃ e ∈ (m.enter phase).opQueue, p e = true) ∧
          queueRank p (m.enter phase) < queueRank p m := fun hlt =>
      queueRank_append (List.append_nil _).symm hlt h
    have htake : ∀ {e : Entry D O R} {rest : List (Entry D O R)}, m.opQueue = e :: rest →
        Taken P call m m' e → (∃ q', m'.opQueue = rest ++ q') →
        (∃ e, p e = true ∧ Taken P call m m' e) ∨
          ((∃ e ∈ m'.opQueue, p e = true) ∧ queueRank p m' < queueRank p m) := by
      intro e rest hq htaken hq'
      cases hp : p e with
      | true => exact .inl ⟨e, hp, htaken⟩
      | false => exact .inr (queueRank_pop hq hq' hp h)
    cases hs with
    | «return» | sleep =>
      refine .inr (hover ?_)
      rw [turnRank, turnRank, hidle]
      exact toLex_lt_of_class Nat.one_pos
    | task hphase hst hq =>
      refine htake hq ⟨_, _, rfl⟩ ?_
      rw [runTask_eq]
      exact ⟨_, List.append_assoc _ _ _⟩
    | complete hphase hst hq hc => exact htake hq ⟨_, hc, rfl⟩ ⟨[], (List.append_nil _).symm⟩
    | descriptor hphase hst hq => exact htake hq rfl ⟨[], (List.append_nil _).symm⟩
    | post hphase | registerDescriptor hphase | deregisterDescriptor hphase | behind hphase
    | untried hphase | tried hphase | immediate hphase | immediateExhausted hphase
    | modify hphase | enqueue hphase | run hphase | noWork hphase | workCleanup hphase
    | skip hphase | nothing hphase | notDone hphase | done hphase | exhausted hphase
    | compensate hphase | first hphase =>
      rw [hidle] at hphase
      cases hphase
  · right
    cases hs.moves with
    | append ops hq => exact queueRank_append hq (hs.turn hidle) h
    | pop hphase => exact absurd hphase hidle
    | task events hphase => exact absurd hphase hidle

omit [DecidableEq D] in
theorem Ordered.task_mem {q : List (Entry D O R)} (h : Ordered q) : .task ∈ q := by
  cases h
  exact List.mem_append_right _ List.mem_cons_self

/-- The thread goes on, or does not while something else happens. -/
inductive Goes (P : Program D O A R σ) :
    Option (Call D A R) → Scheduler D O R σ → Scheduler D O R σ → Prop
  | call : Step P call n n' → Goes P (some call) n n'
  | pause : Goes P none n n

theorem Goes.keeps {label : Option (Call D A R)} {inv : Scheduler D O R σ → Prop}
    (hs : Goes P label m m') (h : inv m) (hstep : ∀ call, Step P call m m' → inv m') :
    inv m' := by
  cases hs with
  | call hs => exact hstep _ hs
  | pause => exact h

section Runs
variable {run : ℕ → Scheduler D O R σ} {labels : ℕ → Option (Call D A R)} {s : σ}
  {requests : List (Request D O R)}

theorem sound_at (h0 : run 0 = initial s requests)
    (hs : ∀ n, Goes P (labels n) (run n) (run (n + 1))) (n : ℕ) : (run n).Sound := by
  induction n with
  | zero => exact h0 ▸ initial_sound s requests
  | succ n ih => exact (hs n).keeps ih fun _ hstep => hstep.sound ih

/-- What every step of the thread brings nearer to its goal gets there. -/
theorem Goes.eventually {α : Type*} [Preorder α] [WellFoundedLT α] {n : ℕ}
    (run : ℕ → Scheduler D O R σ)
    (hs : ∀ n, Goes P (labels n) (run n) (run (n + 1)))
    (hcalls : ∀ n, ∃ n', n ≤ n' ∧ (labels n').isSome) (rank : Scheduler D O R σ → α)
    (inv : ℕ → Scheduler D O R σ → Prop) {goal : ℕ → Prop}
    (hpause : ∀ n, labels n = none → inv n (run n) → goal n ∨ inv (n + 1) (run n))
    (h : ∀ n call, labels n = some call → Step P call (run n) (run (n + 1)) → inv n (run n) →
      goal n ∨ (inv (n + 1) (run (n + 1)) ∧ rank (run (n + 1)) < rank (run n)))
    (hn : inv n (run n)) : Agents.Until (fun n => inv n (run n)) goal n := by
  refine Agents.eventually (fun n => rank (run n)) (fun n => inv n (run n))
    (fun n => (labels n).isSome) hcalls (fun n hinv => ?_) hn
  generalize hm : run (n + 1) = m
  generalize hl : labels n = label
  have hgoes := hl ▸ hm ▸ hs n
  cases hgoes with
  | call hstep =>
    subst hm
    exact (h n _ hl hstep hinv).imp_right fun ⟨hinv', hlt⟩ => ⟨hinv', hlt.le, fun _ => hlt⟩
  | pause => exact (hpause n hl hinv).imp_right fun hinv' => ⟨hinv', le_refl _, by simp⟩

/-- Every entry of the queue has its turn. -/
theorem eventually_taken (hs : ∀ n, Goes P (labels n) (run n) (run (n + 1)))
    (hcalls : ∀ n, ∃ n', n ≤ n' ∧ (labels n').isSome)
    {e : Entry D O R} {n : ℕ} (he : e ∈ (run n).opQueue) :
    ∃ n', n ≤ n' ∧ ∃ call, labels n' = some call ∧
      Taken P call (run n') (run (n' + 1)) e := by
  classical
  refine (Goes.eventually run hs hcalls (queueRank fun e' => decide (e' = e))
    (fun _ m => ∃ e' ∈ m.opQueue, decide (e' = e) = true) (fun _ _ => .inr) ?_
    ⟨e, he, decide_eq_true rfl⟩).reached
  intro n call hl hstep hmem
  refine (hstep.advances hmem).imp_left ?_
  rintro ⟨e', he', htaken⟩
  obtain rfl := of_decide_eq_true he'
  exact ⟨call, hl, htaken⟩

/-- The reactor is polled again and again. -/
theorem eventually_waits (h0 : run 0 = initial s requests)
    (hs : ∀ n, Goes P (labels n) (run n) (run (n + 1)))
    (hcalls : ∀ n, ∃ n', n ≤ n' ∧ (labels n').isSome) (n : ℕ) :
    ∃ n', n ≤ n' ∧ ∃ blocking events, labels n' = some (.wait blocking events) := by
  obtain ⟨n', hle, call, hl, blocking, events, rfl⟩ :=
    eventually_taken hs hcalls (sound_at h0 hs n).ordered.task_mem
  exact ⟨n', hle, blocking, events, hl⟩

end Runs

end Horcrux.Asio.Scheduler
