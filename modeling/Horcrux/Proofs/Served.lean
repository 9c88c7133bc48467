import Horcrux.Proofs.Turns

namespace Horcrux.Asio
variable {D O A R σ : Type} [DecidableEq D]

namespace Kernel
variable {lasting : A → Prop} {k k' : Kernel D}

theorem notify_grows (k : Kernel D) (d : D) :
    ∃ ds, (k.notify d).readyList = k.readyList ++ ds := by
  unfold notify
  split
  · exact ⟨[], (List.append_nil _).symm⟩
  · exact ⟨[d], rfl⟩

theorem notifyIfReady_grows (k : Kernel D) (d : D) :
    ∃ ds, (k.notifyIfReady d).readyList = k.readyList ++ ds := by
  unfold notifyIfReady
  split
  · exact notify_grows k d
  · exact ⟨[], (List.append_nil _).symm⟩

theorem Happens.grows (h : Happens k k') : ∃ ds, k'.readyList = k.readyList ++ ds := by
  cases h with
  | arrive =>
    unfold Kernel.arrive
    dsimp only
    split
    · exact notify_grows _ _
    · exact ⟨[], (List.append_nil _).symm⟩
  | spurious => exact notify_grows k _

theorem Happens.ready (h : Happens k k') (hready : k.ready d j = true) : k'.ready d j = true := by
  cases h with
  | arrive =>
    rw [arrive_ready]
    split
    · rfl
    · exact hready
  | spurious => rwa [notify_ready]

/-- A wait takes from the list. -/
def Heard (k k' : Kernel D) (call : Call D A R) : Prop :=
  (∃ blocking events, call = .wait blocking events) ∧
    (k.readyList = [] ∨ k'.readyList.length < k.readyList.length)

/-- A descriptor on the list is reported, or does not fall back, and gets on with each wait. -/
theorem Serves.nearer {call : Call D A R} (h : Serves lasting call k k')
    (hd : d ∈ k.readyList) (hdelete : call ≠ .delete d) :
    (∃ blocking events, call = .wait blocking events ∧
        (k.interest d j = true → k.ready d j = true →
          ∃ e, (d, e) ∈ events ∧ e.concern j = true)) ∨
      (k'.readyList.idxOf d ≤ k.readyList.idxOf d ∧
        (Heard k k' call → k'.readyList.idxOf d < k.readyList.idxOf d)) := by
  have hgrows : (∃ ds, k'.readyList = k.readyList ++ ds) →
      k'.readyList.idxOf d ≤ k.readyList.idxOf d ∧
        (Heard k k' call → k'.readyList.idxOf d < k.readyList.idxOf d) := by
    rintro ⟨ds, hds⟩
    refine ⟨by rw [hds, List.idxOf_append_of_mem hd], fun ⟨_, hheard⟩ => ?_⟩
    rw [hds, List.length_append] at hheard
    rcases hheard with hnil | hlt
    · rw [hnil] at hd
      cases hd
    · omega
  cases h with
  | none | notDone | done | exhausted | interrupted =>
    exact .inr (hgrows ⟨[], (List.append_nil _).symm⟩)
  | add => exact .inr (hgrows (notifyIfReady_grows _ _))
  | modify => exact .inr (hgrows (notifyIfReady_grows _ _))
  | delete =>
    refine .inr ⟨Lists.idxOf_erase_le fun he => hdelete (he ▸ rfl), ?_⟩
    rintro ⟨⟨_, _, hw⟩, _⟩
    cases hw
  | @wait n _ events blocking hcount hreport =>
    by_cases hm : d ∈ k.readyList.take n
    · exact .inl ⟨_, _, rfl, hreport d hm j⟩
    · right
      have hidx : k.readyList.idxOf d =
          (k.readyList.take n).length + (k.readyList.drop n).idxOf d := by
        rw [← List.idxOf_append_of_notMem hm, List.take_append_drop]
      refine ⟨by rw [hidx]; exact Nat.le_add_left _ _, fun ⟨_, hheard⟩ => ?_⟩
      rcases hheard with hnil | hlt
      · rw [hnil] at hd
        cases hd
      · have hlen : (k.readyList.take n).length + (k.readyList.drop n).length =
            k.readyList.length := by
          rw [← List.length_append, List.take_append_drop]
        dsimp only at hlt ⊢
        omega

end Kernel

namespace Scheduler
variable {P : Program D O A R σ} {m m' : Scheduler D O R σ}

/-- Where the types of a descriptor are being seen to, the call of an operation that waits is
made, or its type is still to come. -/
theorem Step.trying {call : Call D A R} (hs : Step P call m m')
    (hphase : m.phase = .performIo d events types ops) (hc : events.concern j = true)
    (hj : j ∈ types) (ho : o ∈ (m.descriptors d).opQueue j) :
    (∃ a attempt, call = .perform d j a attempt) ∨
      ∃ types' ops', m'.phase = .performIo d events types' ops' ∧ j ∈ types' := by
  cases hs with
  | skip hphase' he =>
    obtain ⟨rfl, rfl, rfl, rfl⟩ := Phase.performIo.inj (hphase.symm.trans hphase')
    refine .inr ⟨_, _, rfl, (List.mem_cons.mp hj).resolve_left ?_⟩
    rintro rfl
    rw [he] at hc
    cases hc
  | nothing hphase' _ hq =>
    obtain ⟨rfl, rfl, rfl, rfl⟩ := Phase.performIo.inj (hphase.symm.trans hphase')
    refine .inr ⟨_, _, rfl, (List.mem_cons.mp hj).resolve_left ?_⟩
    rintro rfl
    rw [hq] at ho
    cases ho
  | notDone hphase' | exhausted hphase' =>
    obtain ⟨rfl, rfl, rfl, rfl⟩ := Phase.performIo.inj (hphase.symm.trans hphase')
    rcases List.mem_cons.mp hj with rfl | hj
    · exact .inl ⟨_, _, rfl⟩
    · exact .inr ⟨_, _, rfl, hj⟩
  | done hphase' =>
    obtain ⟨rfl, rfl, rfl, rfl⟩ := Phase.performIo.inj (hphase.symm.trans hphase')
    exact .inr ⟨_, _, rfl, hj⟩
  | compensate hphase' | first hphase' =>
    obtain ⟨rfl, rfl, rfl, rfl⟩ := Phase.performIo.inj (hphase.symm.trans hphase')
    cases hj
  | post hphase' | registerDescriptor hphase' | deregisterDescriptor hphase' | behind hphase'
  | untried hphase' | tried hphase' | immediate hphase' | immediateExhausted hphase'
  | modify hphase' | enqueue hphase' | run hphase' | noWork hphase' | workCleanup hphase'
  | «return» hphase' | sleep hphase' | task hphase' | complete hphase' | descriptor hphase' =>
    rw [hphase] at hphase'
    cases hphase'

/-- Where operations wait, the call is made for the one at the head. -/
theorem Step.head (hs : Step P (.perform d j a attempt) m m')
    (h : o ∈ (m.descriptors d).opQueue j) : ∃ o' waiting,
      (m.descriptors d).opQueue j = o' :: waiting ∧ P.perform m.state o' a = some attempt := by
  cases hs with
  | tried _ _ hq | immediate _ _ hq | immediateExhausted _ _ hq =>
    rw [hq] at h
    cases h
  | notDone _ _ hq hp | done _ _ hq hp | exhausted _ _ hq hp => exact ⟨_, _, hq, hp⟩

end Scheduler

open Scheduler

section Waits
variable {P : Program D O A R σ} {lasting : A → Prop} {label : Option (Call D A R)}
  {x y : Scheduler D O R σ × Kernel D}

/-- An operation that waits for a call which would not block, and asio has not taken it for one
that does. -/
def Waits (x : Scheduler D O R σ × Kernel D) (d : D) (j : OpType) (o : O) : Prop :=
  o ∈ (x.1.descriptors d).opQueue j ∧ x.2.ready d j = true ∧ x.2.stale d j = false

/-- The call is made, or the descriptor closed. -/
def Made (label : Option (Call D A R)) (d : D) (j : OpType) : Prop :=
  (∃ a attempt, label = some (.perform d j a attempt)) ∨ label = some (.delete d)

theorem SystemStep.goes (h : SystemStep P lasting label x y) : Goes P label x.1 y.1 := by
  cases h with
  | call hstep => exact .call hstep
  | happens => exact .pause

theorem SystemStep.step {call : Call D A R} (h : SystemStep P lasting label x y)
    (hl : label = some call) : Step P call x.1 y.1 := by
  cases h with
  | call hstep =>
    obtain rfl := Option.some.inj hl
    exact hstep
  | happens => cases hl

theorem SystemStep.waits (hs : SystemStep P lasting label x y) (hx : Awake x)
    (h : Waits x d j o) : Made label d j ∨ Waits y d j o := by
  obtain ⟨ho, hready, hstale⟩ := h
  cases hs with
  | call hstep hk =>
    rcases hstep.waiting ho with ho' | ⟨a, attempt, rfl⟩ | rfl
    · rcases hk.keeps (d := d) (j := j) with ⟨a, attempt, rfl⟩ | rfl | ⟨hready', hstale'⟩
      · exact .inl (.inl ⟨a, attempt, rfl⟩)
      · cases hstep with
        | registerDescriptor _ hd =>
          rw [hx.sound.registered.waiting d hd j] at ho
          cases ho
      · exact .inr ⟨ho', hready'.trans hready, hstale'.trans hstale⟩
    · exact .inl (.inl ⟨a, attempt, rfl⟩)
    · exact .inl (.inr rfl)
  | happens hk => exact .inr ⟨ho, hk.ready hready, hk.stale ▸ hstale⟩

omit [DecidableEq D] in
theorem Made.of_call {call : Call D A R} (h : call = .delete d) : Made (some call) d j :=
  .inr (h ▸ rfl)

/-- What is on the list comes to be notified. -/
theorem SystemStep.nearer (hs : SystemStep P lasting label x y) (hl : x.2.Listed d j)
    (hready : x.2.ready d j = true) (hmade : ¬Made label d j) (hnot : ¬y.1.Notified d j) :
    y.2.readyList.idxOf d ≤ x.2.readyList.idxOf d ∧
      ((∃ call, label = some call ∧ x.2.Heard y.2 call) →
        y.2.readyList.idxOf d < x.2.readyList.idxOf d) := by
  cases hs with
  | call hstep hk =>
    rcases hk.nearer (j := j) hl.1 fun hd => hmade (.of_call hd) with
      ⟨blocking, events, rfl, hreport⟩ | ⟨hle, hlt⟩
    · refine absurd ?_ hnot
      cases hstep with
      | task =>
        rw [runTask_eq]
        obtain ⟨hmem, hc⟩ := dispatch_mem events _ [] (.inr (hreport hl.2 hready))
        exact .inl ⟨by simp [hmem], hc⟩
    · refine ⟨hle, ?_⟩
      rintro ⟨call, hcall, hheard⟩
      obtain rfl := Option.some.inj hcall
      exact hlt hheard
  | happens hk =>
    obtain ⟨ds, hds⟩ := hk.grows
    refine ⟨by rw [hds, List.idxOf_append_of_mem hl.1], ?_⟩
    rintro ⟨_, hcall, _⟩
    cases hcall

end Waits

/-- A run that goes on for ever, where epoll is not interrupted in all of the waits from some
time on. -/
structure FairRun (P : Program D O A R σ) (lasting : A → Prop) (x : Scheduler D O R σ × Kernel D)
    (run : ℕ → Scheduler D O R σ × Kernel D) (labels : ℕ → Option (Call D A R)) : Prop where
  start : run 0 = x
  step : ∀ n, SystemStep P lasting (labels n) (run n) (run (n + 1))
  calls : ∀ n, ∃ n', n ≤ n' ∧ (labels n').isSome
  heard : ∀ n, (∀ n', n ≤ n' →
      ∃ n'', n' ≤ n'' ∧ ∃ blocking events, labels n'' = some (.wait blocking events)) →
    ∃ n', n ≤ n' ∧ ∃ call, labels n' = some call ∧ (run n').2.Heard (run (n' + 1)).2 call

section Runs
variable {P : Program D O A R σ} {lasting : A → Prop} {labels : ℕ → Option (Call D A R)}
  {run : ℕ → Scheduler D O R σ × Kernel D} {s : σ} {requests : List (Request D O R)}

namespace FairRun

theorem awake (h : FairRun P lasting (initial s requests, {}) run labels) (n : ℕ) :
    Awake (run n) := by
  induction n with
  | zero => exact h.start ▸ initial_awake s requests
  | succ n ih => exact (h.step n).awake ih

theorem goes (h : FairRun P lasting x run labels) (n : ℕ) :
    Goes P (labels n) (run n).1 (run (n + 1)).1 := (h.step n).goes

theorem waits (h : FairRun P lasting (initial s requests, {}) run labels)
    (hw : Waits (run n) d j o) : Made (labels n) d j ∨ Waits (run (n + 1)) d j o :=
  (h.step n).waits (h.awake n) hw

/-- Epoll is heard again and again. -/
theorem heard_again (h : FairRun P lasting (initial s requests, {}) run labels) (n : ℕ) :
    ∃ n', n ≤ n' ∧ ∃ call, labels n' = some call ∧ (run n').2.Heard (run (n' + 1)).2 call :=
  h.heard n fun n' _ => eventually_waits (congrArg Prod.fst h.start) h.goes h.calls n'

/-- What waits although it could go on comes to be notified. -/
theorem eventually_notified (h : FairRun P lasting (initial s requests, {}) run labels)
    (hw : Waits (run n) d j o) : Agents.Until (fun n => Waits (run n) d j o)
      (fun n => Made (labels n) d j ∨ (run n).1.Notified d j) n := by
  classical
  refine Agents.eventually
    (fun n => if (run n).1.Notified d j then 0 else (run n).2.readyList.idxOf d + 1)
    (fun n => Waits (run n) d j o) _ h.heard_again (fun n hw => ?_) hw
  by_cases hn : (run n).1.Notified d j
  · exact .inl (.inr hn)
  by_cases hmade : Made (labels n) d j
  · exact .inl (.inl hmade)
  refine .inr ⟨(h.waits hw).resolve_left hmade, ?_⟩
  by_cases hn' : (run (n + 1)).1.Notified d j
  · simp [hn, hn']
  have hl : (run n).2.Listed d j := by
    rcases (h.awake n).alert hw.1 hw.2.1 with hl | hnot | hstale
    · exact hl
    · exact absurd hnot hn
    · rw [hw.2.2] at hstale
      cases hstale
  obtain ⟨hle, hlt⟩ := (h.step n).nearer hl hw.2.1 hmade hn'
  simp only [if_neg hn, if_neg hn']
  exact ⟨Nat.succ_le_succ hle, fun hheard => Nat.succ_lt_succ (hlt hheard)⟩

/-- What is notified in the queue comes to be next. -/
theorem eventually_dispatched (h : FairRun P lasting (initial s requests, {}) run labels)
    (hw : Waits (run n) d j o) (hmem : .descriptor d ∈ (run n).1.opQueue)
    (hc : ((run n).1.descriptors d).taskResult.concern j = true) :
    Agents.Until (fun n => Waits (run n) d j o) (fun n => Made (labels n) d j ∨
      (Waits (run (n + 1)) d j o ∧ ∃ events : Events, events.concern j = true ∧
        (run (n + 1)).1.phase = .performIo d events [.write, .read] [])) n := by
  classical
  refine (Goes.eventually (fun n => (run n).1) h.goes h.calls
    (queueRank fun e => decide (e = .descriptor d))
    (fun n m => Waits (run n) d j o ∧ .descriptor d ∈ m.opQueue ∧
      (m.descriptors d).taskResult.concern j = true) ?_ ?_ ⟨hw, hmem, hc⟩).mono fun _ => And.left
  · rintro n _ ⟨hw, hrest⟩
    exact (h.waits hw).imp .inl fun hw' => ⟨hw', hrest⟩
  · rintro n call hl hstep ⟨hw, hmem, hc⟩
    rcases h.waits hw with hmade | hw'
    · exact .inl (.inl hmade)
    · rcases hstep.advances (p := fun e => decide (e = .descriptor d))
          ⟨_, hmem, decide_eq_true rfl⟩ with
        ⟨e, he, htaken⟩ | ⟨⟨e, hmem', he⟩, hlt⟩
      · obtain rfl := of_decide_eq_true he
        exact .inl (.inr ⟨hw', _, hc, htaken⟩)
      · obtain rfl := of_decide_eq_true he
        refine .inr ⟨⟨hw', hmem', ?_⟩, hlt⟩
        rwa [hstep.taskResult (h.awake n).sound.ordered hmem]

/-- What is next comes to be tried. -/
theorem eventually_tried (h : FairRun P lasting (initial s requests, {}) run labels)
    {events : Events} (hc : events.concern j = true) (hw : Waits (run n) d j o)
    (hphase : ∃ types ops, (run n).1.phase = .performIo d events types ops ∧ j ∈ types) :
    Agents.Until (fun n => Waits (run n) d j o) (fun n => Made (labels n) d j) n := by
  refine (Goes.eventually (fun n => (run n).1) h.goes h.calls turnRank
    (fun n m => Waits (run n) d j o ∧
      ∃ types ops, m.phase = .performIo d events types ops ∧ j ∈ types) ?_ ?_
      ⟨hw, hphase⟩).mono fun _ => And.left
  · intro n _ hinv
    exact (h.waits hinv.1).imp_right fun hw' => ⟨hw', hinv.2⟩
  · rintro n call hl hstep ⟨hw, types, ops, hphase, hj⟩
    rcases h.waits hw with hmade | hw'
    · exact .inl hmade
    · rcases hstep.trying hphase hc hj hw.1 with ⟨a, attempt, rfl⟩ | hphase'
      · exact .inl (.inl ⟨a, attempt, hl⟩)
      · refine .inr ⟨⟨hw', hphase'⟩, hstep.turn ?_⟩
        rw [hphase]
        simp

/-- What waits although it could go on has its call made. -/
theorem eventually_made (h : FairRun P lasting (initial s requests, {}) run labels)
    (hw : Waits (run n) d j o) :
    Agents.Until (fun n => Waits (run n) d j o) (fun n => Made (labels n) d j) n := by
  refine (h.eventually_notified hw).trans fun i hw hn => ?_
  rcases hn with hmade | ⟨hmem, hc⟩ | ⟨events, types, ops, hphase, hc, hj⟩
  · exact .now hw hmade
  · refine (h.eventually_dispatched hw hmem hc).trans fun i hw hn => ?_
    rcases hn with hmade | ⟨hw', events, hc', hphase⟩
    · exact .now hw hmade
    · exact .next hw (h.eventually_tried hc' hw' ⟨_, _, hphase, by cases j <;> simp⟩)
  · exact h.eventually_tried hc hw ⟨types, ops, hphase, hj⟩

end FairRun

/-- Every event is served, in any run of any program on its kernel that goes on for ever, where
epoll is not interrupted in all of the waits from some time on. An operation that waits for a
call which would not block goes on waiting until this call is made, for the operation at the head
of its queue, and the call is made, however many descriptors and operations there are; or its
descriptor is closed. -/
theorem every_event_served (h : FairRun P lasting (initial s requests, {}) run labels) (n : ℕ) :
    ∀ d j, ∀ o ∈ ((run n).1.descriptors d).opQueue j,
      (run n).2.ready d j = true → (run n).2.stale d j = false →
      ∃ n', n ≤ n' ∧ (∀ i, n ≤ i → i ≤ n' → o ∈ ((run i).1.descriptors d).opQueue j) ∧
        ((∃ o' waiting a attempt, ((run n').1.descriptors d).opQueue j = o' :: waiting ∧
          labels n' = some (.perform d j a attempt) ∧
          P.perform (run n').1.state o' a = some attempt) ∨ labels n' = some (.delete d)) := by
  intro d j o ho hready hstale
  obtain ⟨n', hle, hmade, hwaits⟩ := h.eventually_made ⟨ho, hready, hstale⟩
  refine ⟨n', hle, fun i hi hi' => (hwaits i hi hi').1, ?_⟩
  rcases hmade with ⟨a, attempt, hl⟩ | hl
  · obtain ⟨o', waiting, hq, hp⟩ := ((h.step n').step hl).head (hwaits n' hle (le_refl _)).1
    exact .inl ⟨o', waiting, a, attempt, hq, hl, hp⟩
  · exact .inr hl

end Runs

section Fair

/-- The steps that are calls, where no wait is interrupted. -/
def Lively (P : Program D O A R σ) (lasting : A → Prop) (label : Option (Call D A R))
    (x y : Scheduler D O R σ × Kernel D) : Prop :=
  SystemStep P lasting label x y ∧
    ∃ call, label = some call ∧ ∀ blocking events, call = .wait blocking events →
      x.2.Heard y.2 call

theorem Lively.call {P : Program D O A R σ} {lasting : A → Prop} {call : Call D A R}
    {m m' : Scheduler D O R σ} {k k' : Kernel D} (hs : Step P call m m')
    (hk : Kernel.Serves lasting call k k') (hw : ∀ blocking events, call ≠ .wait blocking events) :
    Lively P lasting (some call) (m, k) (m', k') :=
  ⟨.call hs hk, call, rfl, fun blocking events h => absurd h (hw blocking events)⟩

/-- With such steps a run can go on for ever, and is a fair one. -/
theorem Lively.exists_run {P : Program D O A R σ} {lasting : A → Prop}
    {x y z : Scheduler D O R σ × Kernel D} {before after : List (Option (Call D A R))}
    (inv : Scheduler D O R σ × Kernel D → Prop)
    (h : ∀ x, inv x → ∃ label labels y,
      Agents.Schedule (Lively P lasting) (label :: labels) x y ∧ inv y)
    (hstart : Agents.Schedule (SystemStep P lasting) before x y)
    (hs : Agents.Schedule (Lively P lasting) after y z) (hz : inv z) :
    ∃ run labels, FairRun P lasting x run labels ∧ run before.length = y := by
  obtain ⟨run', labels', h0', hrun'⟩ := Agents.exists_endless inv h hs hz
  obtain ⟨run, labels, h0, hrun, htail⟩ := hstart.prepend h0' fun n => (hrun' n).1
  have hlively : ∀ n, before.length ≤ n → Lively P lasting (labels n) (run n) (run (n + 1)) := by
    intro n hn
    obtain ⟨i, rfl⟩ := Nat.exists_eq_add_of_le hn
    have hnow := htail i
    have hnext := (htail (i + 1)).1
    exact hnow.1 ▸ hnow.2 ▸ hnext ▸ hrun' i
  refine ⟨run, labels, ⟨h0, hrun, fun n => ?_, fun n hwaits => ?_⟩, (htail 0).1.trans h0'⟩
  · obtain ⟨_, call, hl, _⟩ := hlively (n + before.length) (Nat.le_add_left _ n)
    exact ⟨_, Nat.le_add_right n _, by rw [hl]; rfl⟩
  · obtain ⟨n', hle, blocking, events, hl⟩ := hwaits (n + before.length) (Nat.le_add_right n _)
    obtain ⟨_, call, hl', hheard⟩ := hlively n' ((Nat.le_add_left _ n).trans hle)
    exact ⟨n', (Nat.le_add_right n _).trans hle, call, hl',
      hheard _ _ (Option.some.inj (hl'.symm.trans hl))⟩

/-- About to poll, with the operation done. -/
structure Ticking (x : Scheduler Nat Nat Unit Nat × Kernel Nat) : Prop where
  scheduler : ∃ n descriptors, x.1 =
    { state := n
      opQueue := [.task, .op 7 ()]
      outstandingWork := 1
      registeredDescriptors := {0}
      descriptors := descriptors
      phase := .idle }
  opQueue : (x.1.descriptors 0).opQueue .read = []
  trySpeculative : (x.1.descriptors 0).trySpeculative .read = true
  ready : x.2.ready 0 .read = true
  readyList : x.2.readyList = []

theorem Ticking.again (h : Ticking x) : ∃ label labels y,
    Agents.Schedule (Lively ticker fun _ => False) (label :: labels) x y ∧ Ticking y := by
  obtain ⟨m, k⟩ := x
  obtain ⟨⟨n, descriptors, hm⟩, hq, hspec, hready, hlist⟩ := h
  dsimp only at hm hq hspec hready hlist
  subst hm
  have hwait : Kernel.Serves (fun _ => False) (.wait false [] : Call Nat Bool Unit) k
      { k with readyList := k.readyList.drop 128 } := by
    refine .wait (.inl (le_refl _)) ?_
    rw [hlist]
    intro d hd
    cases hd
  have hdone : ∀ k : Kernel Nat, k.ready 0 .read = true → Kernel.Serves (fun _ => False)
      (.perform 0 .read true (.done ()) : Call Nat Bool Unit) k (k.setReady 0 .read true) :=
    fun _ => .done
  refine ⟨some (.wait false []), [some .none, some (.perform 0 .read true (.done ())), some .none],
    ?_⟩
  refine Agents.exists_cons ⟨.call (.wait rfl rfl rfl rfl) hwait, _, rfl, ?_⟩ ?_
  · exact fun blocking events h => ⟨⟨_, _, h⟩, .inl hlist⟩
  refine Agents.exists_cons (.call (.complete rfl rfl rfl rfl) .none (by simp)) ?_
  refine Agents.exists_cons (.call (.immediate rfl (Finset.mem_singleton_self 0) hq hspec rfl)
    (hdone _ hready) (by simp)) ?_
  refine Agents.exists_cons (.call (.workCleanup rfl) .none (by simp)) ?_
  exact ⟨_, .nil, ⟨n + 1, descriptors, rfl⟩, hq, hspec, rfl,
    congrArg (List.drop 128) hlist⟩

/-- The ticker when something to read has come for its first operation. -/
theorem ticker_ready : ∃ x, Agents.Schedule (SystemStep ticker fun _ => False)
    [some (.add 0), some (.perform 0 .read false .notDone), some .none, none] (tickerMain, {}) x ∧
    Waits x 0 .read 7 ∧ ∃ labels y,
      Agents.Schedule (Lively ticker fun _ => False) labels x y ∧ Ticking y := by
  have hadd : Kernel.Serves (fun _ => False) (.add 0 : Call Nat Bool Unit) {}
    (Kernel.add {} 0 fun _ => false) := .add
  have hnotDone : ∀ k : Kernel Nat, Kernel.Serves (fun _ => False)
      (.perform 0 .read false .notDone : Call Nat Bool Unit) k
        ((k.setReady 0 .read false).setStale 0 .read false) := fun _ => .notDone (by simp)
  have hdone : ∀ k : Kernel Nat, k.ready 0 .read = true → Kernel.Serves (fun _ => False)
      (.perform 0 .read true (.done ()) : Call Nat Bool Unit) k (k.setReady 0 .read true) :=
    fun _ => .done
  have harrive : ∀ k : Kernel Nat, k.Happens (k.arrive 0 .read) := fun _ => .arrive
  refine Agents.exists_cons (.call (.registerDescriptor rfl (by decide)) hadd) ?_
  refine Agents.exists_cons (.call (.tried rfl (by decide) rfl rfl rfl) (hnotDone _)) ?_
  refine Agents.exists_cons (.call (.enqueue rfl (by simp)) .none) ?_
  refine Agents.exists_cons (.happens (harrive _)) ?_
  refine ⟨_, .nil, ⟨List.mem_singleton_self 7, rfl, rfl⟩,
    [some .none, some (.wait true [(0, { input := true })]), some .none, some .none,
      some (.perform 0 .read true (.done ())), some .none, some .none,
      some (.perform 0 .read true (.done ())), some .none], ?_⟩
  refine Agents.exists_cons (.call (.run rfl (by decide)) .none (by simp)) ?_
  refine Agents.exists_cons
    ⟨.call (.wait rfl rfl rfl rfl) (.wait (n := 128) (.inl (le_refl _)) ?_), _, rfl, ?_⟩ ?_
  · intro d hd j hi _
    obtain rfl : d = 0 := List.mem_singleton.mp hd
    cases j with
    | read => exact ⟨_, List.mem_singleton_self _, rfl⟩
    | write => exact absurd hi (by decide)
  · exact fun blocking events h => ⟨⟨_, _, h⟩, .inr (by decide)⟩
  refine Agents.exists_cons (.call (.descriptor rfl rfl rfl) .none (by simp)) ?_
  refine Agents.exists_cons (.call (.skip rfl rfl) .none (by simp)) ?_
  refine Agents.exists_cons (.call (.done rfl rfl rfl rfl) (hdone _ rfl) (by simp)) ?_
  refine Agents.exists_cons (.call (.nothing rfl rfl rfl) .none (by simp)) ?_
  refine Agents.exists_cons (.call (.first rfl rfl) .none (by simp)) ?_
  refine Agents.exists_cons (.call (.immediate rfl (by decide) rfl rfl rfl)
    (hdone _ rfl) (by simp)) ?_
  refine Agents.exists_cons (.call (.workCleanup rfl) .none (by simp)) ?_
  exact ⟨_, .nil, ⟨1, _, rfl⟩, rfl, rfl, rfl, rfl⟩

theorem every_event_served_sample : ∃ (labels : ℕ → Option (Call Nat Bool Unit)) (n : ℕ),
    4 ≤ n ∧ ((∃ a attempt, labels n = some (.perform 0 .read a attempt)) ∨
      labels n = some (.delete 0)) := by
  obtain ⟨x, hstart, hw, _, _, hs, hy⟩ := ticker_ready
  obtain ⟨run, labels, hrun, rfl⟩ :=
    Lively.exists_run Ticking (fun _ h => h.again) hstart hs hy
  obtain ⟨n, hle, _, h⟩ := every_event_served hrun _ 0 .read 7 hw.1 hw.2.1 hw.2.2
  exact ⟨labels, n, hle, h.imp_left fun ⟨_, _, a, attempt, _, hl, _⟩ => ⟨a, attempt, hl⟩⟩

end Fair

end Horcrux.Asio
