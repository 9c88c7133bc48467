import Horcrux.Proofs.Epoll

namespace Horcrux.Asio

theorem Kernel.Serves.stale_notDone {D A R : Type} [DecidableEq D] {k k' : Kernel D}
    {lasting : A → Prop} {d : D} {j : OpType} {a : A}
    (h : Serves lasting (.perform d j a (.notDone : Attempt R)) k k')
    (hs : k'.stale d j = true) : lasting a := by
  cases h with
  | notDone hlasting =>
    rw [setStale_stale, if_pos ⟨rfl, rfl⟩] at hs
    exact hlasting hs

theorem Kernel.Serves.stale_done {D A R : Type} [DecidableEq D] {k k' : Kernel D}
    {lasting : A → Prop} {d : D} {j : OpType} {a : A} {r : R}
    (h : Serves lasting (.perform d j a (.done r)) k k') : k'.stale = k.stale := by
  cases h
  rfl

theorem Kernel.Happens.stale {D : Type} [DecidableEq D] {k k' : Kernel D} (h : Happens k k') :
    k'.stale = k.stale := by
  cases h with
  | arrive => exact Kernel.arrive_stale _ _ _
  | spurious => exact Kernel.notify_stale _ _

namespace Kernel
variable {D A R : Type} [DecidableEq D] {k k' : Kernel D} {lasting : A → Prop}

/-- What a call of its own leaves as it is. -/
theorem Serves.keeps {call : Call D A R} (h : Serves lasting call k k') :
    (∃ a attempt, call = .perform d j a attempt) ∨ call = .add d ∨
      (k'.ready d j = k.ready d j ∧ k'.stale d j = k.stale d j) := by
  have hplace : ∀ {d' : D} {j' : OpType} {a : A} {attempt : Attempt R},
      Serves lasting (.perform d' j' a attempt) k k' →
      (∃ a' attempt', (.perform d' j' a attempt : Call D A R) = .perform d j a' attempt') ∨
        (.perform d' j' a attempt : Call D A R) = .add d ∨
          (k'.ready d j = k.ready d j ∧ k'.stale d j = k.stale d j) := by
    intro d' j' a attempt hk
    by_cases hne : d = d' ∧ j = j'
    · obtain ⟨rfl, rfl⟩ := hne
      exact .inl ⟨a, attempt, rfl⟩
    · exact .inr (.inr (hk.perform.2.2.1 d j hne))
  cases call with
  | none | modify | delete | wait =>
    right
    right
    cases h <;> simp [Kernel.modify, Kernel.delete]
  | perform => exact hplace h
  | add d' =>
    by_cases hne : d = d'
    · exact .inr (.inl (hne ▸ rfl))
    · cases h
      simp [Kernel.add, Function.update_of_ne hne]

/-- A call goes stale by an answer that lasts. -/
theorem Serves.stale_or {call : Call D A R} (h : Serves lasting call k k')
    (hs : k'.stale d j = true) : (k.stale d j = true ∧ call ≠ .add d) ∨
      ∃ a attempt, call = .perform d j a attempt ∧ lasting a ∧ ∀ r, attempt ≠ .done r := by
  rcases h.keeps (d := d) (j := j) with ⟨a, attempt, rfl⟩ | rfl | ⟨_, hstale⟩
  · cases attempt with
    | notDone => exact .inr ⟨_, _, rfl, h.stale_notDone hs, by simp⟩
    | done r => exact .inl ⟨h.stale_done ▸ hs, by simp⟩
    | doneAndExhausted r =>
      cases h with
      | exhausted _ hlasting =>
        rw [setStale_stale, if_pos ⟨rfl, rfl⟩] at hs
        exact .inr ⟨_, _, rfl, hlasting hs, by simp⟩
  · cases h
    simp [Kernel.add] at hs
  · refine .inl ⟨hstale ▸ hs, ?_⟩
    rintro rfl
    cases h
    simp [Kernel.add] at hs

end Kernel

/-- In a run that leaves a call stale there is a last call of it that did. -/
theorem stale_of_run {D O A R σ : Type} [DecidableEq D] {P : Program D O A R σ}
    {lasting : A → Prop} {x y : Scheduler D O R σ × Kernel D}
    {labels : List (Option (Call D A R))} {d : D}
    (h : Agents.Schedule (SystemStep P lasting) labels x y) (hs : y.2.stale d j = true) :
    (x.2.stale d j = true ∧ some (.add d) ∉ labels) ∨
      ∃ before a attempt after u v, labels = before ++ some (.perform d j a attempt) :: after ∧
        Agents.Schedule (SystemStep P lasting) before x u ∧
        Scheduler.Step P (.perform d j a attempt) u.1 v ∧ some (.add d) ∉ after ∧ lasting a ∧
        ∀ r, attempt ≠ .done r := by
  induction h with
  | nil => exact .inl ⟨hs, List.not_mem_nil⟩
  | @cons label x z labels y hstep hrest ih =>
    rcases ih hs with ⟨hz, hadd⟩ | ⟨before, a, attempt, after, u, v, rfl, hbefore, hlater⟩
    · cases hstep with
      | call hstep hk =>
        rcases hk.stale_or hz with ⟨hx, hne⟩ | ⟨a, attempt, rfl, hlasting, hdone⟩
        · exact .inl ⟨hx, by simp [hadd, hne.symm]⟩
        · exact .inr ⟨[], a, attempt, labels, _, _, rfl, .nil, hstep, hadd, hlasting, hdone⟩
      | happens hk => exact .inl ⟨hk.stale ▸ hz, by simp [hadd]⟩
    · exact .inr ⟨_, a, attempt, after, u, v, rfl, .cons hstep hbefore, hlater⟩

/-- The requests of the running code behind the one that it is about. -/
def Phase.behind {D O R : Type} : Phase D O R → List (Request D O R)
  | .requests _ rest => rest.tail
  | .enqueue _ _ _ _ rest => rest
  | _ => []

namespace Scheduler
variable {D O A R σ : Type} [DecidableEq D] {P : Program D O A R σ} {m m' : Scheduler D O R σ}

section Places

/-- The running code is about to start the operation at the descriptor. -/
def Starting (m : Scheduler D O R σ) (d : D) (j : OpType) (o : O) : Prop :=
  (∃ c, .startOp d j o c ∈ m.phase.requestsLeft) ∨ ∃ b rest, m.phase = .enqueue b d j o rest

omit [DecidableEq D] in
theorem Starting.of_request (h : m.phase = .requests b (.startOp d j o c :: rest)) :
    m.Starting d j o := by
  refine .inl ⟨c, ?_⟩
  rw [h]
  exact List.mem_cons_self

/-- It is the next thing that the running code does, or what it is about. -/
def Starts (m : Scheduler D O R σ) (d : D) (j : OpType) (o : O) : Prop :=
  (∃ b c rest, m.phase = .requests b (.startOp d j o c :: rest)) ∨
    ∃ b rest, m.phase = .enqueue b d j o rest

omit [DecidableEq D] in
theorem Starts.starting (h : m.Starts d j o) : m.Starting d j o := by
  rcases h with ⟨b, c, rest, hphase⟩ | h
  · exact .of_request hphase
  · exact .inr h

/-- An operation is tried when it is started, or where it waits, with no request left to be made. -/
def Tries (m : Scheduler D O R σ) (d : D) (j : OpType) (o : O) : Prop :=
  (m.Starts d j o ∧ d ∈ m.registeredDescriptors) ∨
    (o ∈ (m.descriptors d).opQueue j ∧ m.phase.requestsLeft = [])

omit [DecidableEq D] in
theorem Tries.of_waiting (hphase : m.phase = .performIo d events types ops)
    (hq : (m.descriptors d).opQueue j = o :: waiting) : m.Tries d j o :=
  .inr ⟨hq ▸ List.mem_cons_self, by simp [hphase, Phase.requestsLeft]⟩

/-- What a step does to a descriptor: nothing, where its call is made elsewhere; or an operation
comes to wait; or asio expects no more that a call would block; or the first operation is tried,
and may leave; or the reactor has news; or the descriptor is registered or deregistered. -/
inductive Change (P : Program D O A R σ) (m m' : Scheduler D O R σ) (d : D) : Call D A R → Prop
  | same : m'.descriptors d = m.descriptors d → (∀ j a attempt, call ≠ .perform d j a attempt) →
      call ≠ .add d → Change P m m' d call
  | waits (j : OpType) (o : O) (b : Bool) : m.Starts d j o →
      m'.descriptors d = { m.descriptors d with
        registeredOut := b
        opQueue := Function.update (m.descriptors d).opQueue j
          ((m.descriptors d).opQueue j ++ [o]) } →
      call = .none ∨ call = .modify d → Change P m m' d call
  | relaxes (j : OpType) :
      m'.descriptors d = { m.descriptors d with
        trySpeculative := Function.update (m.descriptors d).trySpeculative j true } →
      Change P m m' d .none
  | tries (o : O) (waiting : List O) (b : Bool) :
      m.Tries d j o → P.perform m.state o a = some attempt →
      m'.state = m.state → waiting <:+ (m.descriptors d).opQueue j →
      m'.descriptors d = { m.descriptors d with
        opQueue := Function.update (m.descriptors d).opQueue j waiting
        trySpeculative := Function.update (m.descriptors d).trySpeculative j b } →
      (b = false → ∃ r, attempt = .doneAndExhausted r) →
      (∀ r, attempt = .doneAndExhausted r → (o, r) ∈ m'.queued ++ m'.phase.held) →
      Change P m m' d (.perform d j a attempt)
  | reports (e : Events) : m'.descriptors d = { m.descriptors d with taskResult := e } →
      Change P m m' d (.wait blocking events)
  | registers :
      m'.descriptors d = { m.descriptors d with
        registeredOut := false
        trySpeculative := fun _ => true } →
      Change P m m' d (.add d)
  | deregisters : m'.descriptors d = { m.descriptors d with opQueue := fun _ => [] } →
      Change P m m' d (.delete d)

omit [DecidableEq D] in
theorem mem_awaiting {m : Scheduler D O R σ} {o : O} :
    o ∈ m.awaiting ↔ ∃ d ∈ m.registeredDescriptors, ∃ j, o ∈ (m.descriptors d).opQueue j := by
  rw [awaiting, Multiset.mem_sum]
  refine exists_congr fun d => and_congr_right fun _ => ?_
  rw [awaitingAt, Multiset.mem_coe, List.mem_append]
  refine ⟨fun h => h.elim (fun h => ⟨_, h⟩) fun h => ⟨_, h⟩, ?_⟩
  rintro ⟨j, h⟩
  cases j with
  | read => exact .inl h
  | write => exact .inr h

omit [DecidableEq D] in
theorem Registered.mem_operations {m : Scheduler D O R σ} {o : O} (h : m.Registered)
    (ho : o ∈ (m.descriptors d).opQueue j) : o ∈ m.operations := by
  have hd : d ∈ m.registeredDescriptors := by
    by_contra hd
    rw [h.waiting d hd j] at ho
    cases ho
  exact Multiset.mem_add.mpr (.inr (Multiset.mem_add.mpr (.inr (mem_awaiting.mpr ⟨d, hd, j, ho⟩))))

omit [DecidableEq D] in
theorem postImmediateCompletion_queued (m : Scheduler D O R σ) (o : O) (r : R) (c b : Bool)
    (x : O × R) :
    x ∈ (m.postImmediateCompletion o r c b).queued ↔ x ∈ m.queued ∨ x = (o, r) := by
  unfold postImmediateCompletion
  split
  · simp [queued, or_assoc]
  · simp only [queued, workStarted, List.filterMap_append, List.filterMap_cons, Entry.done,
      List.filterMap_nil, List.mem_append, List.mem_singleton]
    exact or_right_comm

theorem waitForEvents_change {m n : Scheduler D O R σ} (phase : Phase D O R)
    (hn : n.descriptors d' = { m.descriptors d' with registeredOut := b })
    (hne : d ≠ d' → n.descriptors d = m.descriptors d) (hs : m.Starts d' j o)
    {call : Call D A R} (hcall : call = .none ∨ call = .modify d') :
    Change P m ((n.waitForEvents d' j o).enter phase) d call := by
  by_cases hd : d = d'
  · subst hd
    refine .waits j o b hs ?_ hcall
    rw [enter_descriptors, waitForEvents_descriptors, setOps, modifyDescriptor_self, hn]
  · refine .same ?_ (fun j a attempt h => ?_) fun h => ?_
    · rw [enter_descriptors, waitForEvents_descriptors, setOps, modifyDescriptor_of_ne hd, hne hd]
    · rcases hcall with rfl | rfl <;> cases h
    · rcases hcall with rfl | rfl <;> cases h

/-- A try at one descriptor leaves the others alone. -/
theorem Change.of_try {attempt : Attempt R} (waiting : List O) (b : Bool)
    (hplace : m.Tries d' j o)
    (hp : P.perform m.state o a = some attempt) (hstate : m'.state = m.state)
    (hw : waiting <:+ (m.descriptors d').opQueue j)
    (hm : m'.descriptors = Function.update m.descriptors d' { m.descriptors d' with
      opQueue := Function.update (m.descriptors d').opQueue j waiting
      trySpeculative := Function.update (m.descriptors d').trySpeculative j b })
    (hb : b = false → ∃ r, attempt = .doneAndExhausted r)
    (hmem : ∀ r, attempt = .doneAndExhausted r → (o, r) ∈ m'.queued ++ m'.phase.held) :
    Change P m m' d (.perform d' j a attempt) := by
  by_cases hd : d = d'
  · subst hd
    exact .tries o waiting b hplace hp hstate hw (by rw [hm, Function.update_self]) hb hmem
  · refine .same (by rw [hm, Function.update_of_ne hd]) (fun j a attempt h => ?_) fun h => ?_
    · exact hd (Call.perform.inj h).1.symm
    · cases h

theorem setOps_setSpeculative (m : Scheduler D O R σ) (d : D) (j : OpType) (b : Bool)
    (waiting : List O) : ((m.setSpeculative d j b).setOps d j waiting).descriptors =
      Function.update m.descriptors d { m.descriptors d with
        opQueue := Function.update (m.descriptors d).opQueue j waiting
        trySpeculative := Function.update (m.descriptors d).trySpeculative j b } := by
  simp [setOps, setSpeculative, modifyDescriptor]

theorem update_tried {m : Scheduler D O R σ} (hspec : (m.descriptors d).trySpeculative j = b) :
    m.descriptors = Function.update m.descriptors d { m.descriptors d with
      opQueue := Function.update (m.descriptors d).opQueue j ((m.descriptors d).opQueue j)
      trySpeculative := Function.update (m.descriptors d).trySpeculative j b } := by
  simp [← hspec]

theorem dispatch_change (events : List (D × Events)) (m : Scheduler D O R σ) (ops : List D)
    (d : D) : ∃ e,
      (m.dispatch ops events).1.descriptors d = { m.descriptors d with taskResult := e } := by
  have h := dispatch_keeps (fun ds => { ds with taskResult := {} }) (fun _ _ => rfl) events m ops d
  exact ⟨_, congrArg (fun ds => { ds with
    taskResult := ((m.dispatch ops events).1.descriptors d).taskResult }) h⟩

/-- What one step does to one descriptor. -/
theorem Step.change {call : Call D A R} (hs : Step P call m m') (d : D) :
    Change P m m' d call := by
  cases hs with
  | post =>
    refine .same ?_ (by simp) (by simp)
    rw [enter_descriptors, (postImmediateCompletion_descriptors m _ _ _ _).1]
  | registerDescriptor =>
    rename_i d' _ _ _ _
    by_cases hd : d = d'
    · subst hd
      refine .registers ?_
      rw [enter_descriptors, Scheduler.registerDescriptor, modifyDescriptor_self]
    · refine .same ?_ (by simp) fun h => hd (Call.add.inj h).symm
      rw [enter_descriptors, Scheduler.registerDescriptor, modifyDescriptor_of_ne hd]
  | deregisterDescriptor =>
    rename_i d' _ _ _ _
    by_cases hd : d = d'
    · subst hd
      refine .deregisters ?_
      rw [enter_descriptors, Scheduler.deregisterDescriptor, postDeferredCompletions,
        modifyDescriptor_self]
    · exact .same (deregisterDescriptor_of_ne m P.aborted hd) (by simp) (by simp)
  | behind hphase =>
    exact waitForEvents_change _ rfl (fun _ => rfl) (.inl ⟨_, _, _, hphase⟩) (.inl rfl)
  | modify hphase =>
    exact waitForEvents_change _ (modifyDescriptor_self _ _ _) (fun h => modifyDescriptor_of_ne h _)
      (.inr ⟨_, _, hphase⟩) (.inr rfl)
  | enqueue hphase =>
    exact waitForEvents_change _ rfl (fun _ => rfl) (.inr ⟨_, _, hphase⟩) (.inl rfl)
  | untried | run | noWork | «return» | sleep | complete | descriptor | skip | compensate | first =>
    exact .same rfl (by simp) (by simp)
  | workCleanup =>
    refine .same ?_ (by simp) (by simp)
    rw [enter_descriptors, (workCleanup_descriptors m).1]
  | @task rest events =>
    rw [runTask_eq]
    obtain ⟨e, he⟩ := dispatch_change events { m with opQueue := rest } [] d
    exact .reports e he
  | tried hphase hd hq hspec hp =>
    exact .of_try _ true (.inl ⟨.inl ⟨_, _, _, hphase⟩, hd⟩) hp rfl List.suffix_rfl
      (update_tried hspec) (by simp) (by simp)
  | immediate hphase hd hq hspec hp =>
    refine .of_try _ true (.inl ⟨.inl ⟨_, _, _, hphase⟩, hd⟩) hp
      (postImmediateCompletion_state _ _ _ _ _) List.suffix_rfl ?_ (by simp) (by simp)
    rw [enter_descriptors, (postImmediateCompletion_descriptors m _ _ _ _).1]
    exact update_tried hspec
  | immediateExhausted hphase hd hq hspec hp =>
    refine .of_try _ false (.inl ⟨.inl ⟨_, _, _, hphase⟩, hd⟩) hp
      (postImmediateCompletion_state _ _ _ _ _) List.suffix_rfl ?_ (fun _ => ⟨_, rfl⟩) ?_
    · rw [enter_descriptors,
        (postImmediateCompletion_descriptors (m.setSpeculative _ _ _) _ _ _ _).1]
      simp [setSpeculative, modifyDescriptor]
    · rintro r he
      obtain rfl := Attempt.doneAndExhausted.inj he
      exact List.mem_append_left _ ((postImmediateCompletion_queued _ _ _ _ _ _).mpr (.inr rfl))
  | nothing =>
    rename_i d' j _ _ _ _ _ _
    by_cases hd : d = d'
    · subst hd
      refine .relaxes j ?_
      rw [enter_descriptors, setSpeculative, modifyDescriptor_self]
    · refine .same ?_ (by simp) (by simp)
      rw [enter_descriptors, setSpeculative, modifyDescriptor_of_ne hd]
  | notDone hphase he hq hp =>
    refine .of_try _ true (.of_waiting hphase hq) hp rfl List.suffix_rfl ?_ (by simp) (by simp)
    simp [setSpeculative, modifyDescriptor]
  | done hphase he hq hp =>
    exact .of_try _ true (.of_waiting hphase hq) hp rfl (hq ▸ List.suffix_cons _ _)
      (setOps_setSpeculative _ _ _ _ _) (by simp) (by simp)
  | exhausted hphase he hq hp =>
    refine .of_try _ false (.of_waiting hphase hq) hp rfl (hq ▸ List.suffix_cons _ _)
      (setOps_setSpeculative _ _ _ _ _) (fun _ => ⟨_, rfl⟩) fun r he => ?_
    obtain rfl := Attempt.doneAndExhausted.inj he
    exact List.mem_append_right _ (List.mem_append_right _ (List.mem_singleton_self _))

/-- An operation comes to wait where it was started, and nowhere else. -/
theorem Step.queues {call : Call D A R} (hs : Step P call m m')
    (h : o ∈ (m'.descriptors d).opQueue j) :
    o ∈ (m.descriptors d).opQueue j ∨ m.Starting d j o := by
  cases hs.change d with
  | same hd | relaxes _ hd | reports _ hd | registers hd => exact .inl (by rwa [hd] at h)
  | waits j' o' b hstarts hd =>
    simp only [hd, Function.update_apply] at h
    split at h
    · rename_i he
      subst he
      refine (List.mem_append.mp h).imp_right fun ho => ?_
      exact List.mem_singleton.mp ho ▸ hstarts.starting
    · exact .inl h
  | tries _ waiting b _ _ _ hw hd =>
    simp only [hd, Function.update_apply] at h
    split at h
    · rename_i he
      subst he
      exact .inl (hw.subset h)
    · exact .inl h
  | deregisters hd =>
    rw [hd] at h
    cases h

/-- What waits goes on waiting, unless its call is made or its descriptor closed. -/
theorem Step.waiting {call : Call D A R} (hs : Step P call m m')
    (h : o ∈ (m.descriptors d).opQueue j) :
    o ∈ (m'.descriptors d).opQueue j ∨ (∃ a attempt, call = .perform d j a attempt) ∨
      call = .delete d := by
  cases hs.change d with
  | same hd | relaxes _ hd | reports _ hd | registers hd => exact .inl (by rwa [hd])
  | waits j' o' b _ hd =>
    simp only [hd, Function.update_apply]
    split
    · rename_i he
      exact .inl (List.mem_append_left _ (he ▸ h))
    · exact .inl h
  | @tries j' a attempt _ waiting b _ _ _ _ hd =>
    by_cases hj : j = j'
    · exact .inr (.inl ⟨a, attempt, hj ▸ rfl⟩)
    · simp only [hd, Function.update_of_ne hj]
      exact .inl h
  | deregisters => exact .inr (.inr rfl)

/-- The events that epoll has reported of a descriptor stay until they are taken. -/
theorem Step.taskResult {call : Call D A R} (hs : Step P call m m') (ho : Ordered m.opQueue)
    (h : .descriptor d ∈ m.opQueue) :
    (m'.descriptors d).taskResult = (m.descriptors d).taskResult := by
  cases hs.change d with
  | same hd | relaxes _ hd | registers hd | deregisters hd => rw [hd]
  | waits _ _ _ _ hd => rw [hd]
  | tries _ _ _ _ _ _ _ hd => rw [hd]
  | reports =>
    cases hs with
    | task _ _ hq =>
      rw [hq] at h ho
      cases ho.behind_task _ ((List.mem_cons.mp h).resolve_left (by simp))

/-- What is about to be started was before, or comes with the completion of an operation. -/
theorem Step.starting {call : Call D A R} (hs : Step P call m m') (h : m'.Starting d j o) :
    m.Starting d j o ∨ ∃ o' r requests c, P.complete m.state o' r = some (m'.state, requests) ∧
      (o', r) ∈ m.queued ++ m.phase.held ∧ .startOp d j o c ∈ requests := by
  have hrest : ∀ {phase : Phase D O R} {n : Scheduler D O R σ}, (n.enter phase).Starting d j o →
      (∀ b rest, phase ≠ .enqueue b d j o rest) →
      (∀ request ∈ phase.requestsLeft, request ∈ m.phase.requestsLeft) → m.Starting d j o := by
    rintro phase n (⟨c, hc⟩ | ⟨b, rest, he⟩) hphase hleft
    · exact .inl ⟨c, hleft _ hc⟩
    · exact absurd he (hphase b rest)
  cases hs with
  | post hphase | immediate hphase | immediateExhausted hphase | registerDescriptor hphase
  | deregisterDescriptor hphase | behind hphase | modify hphase | enqueue hphase | run hphase
  | noWork hphase | workCleanup hphase | «return» hphase | sleep hphase | descriptor hphase
  | skip hphase | nothing hphase | notDone hphase | done hphase | exhausted hphase
  | compensate hphase =>
    refine .inl (hrest h (by simp) ?_)
    simp +contextual [hphase, Phase.requestsLeft]
  | untried hphase | tried hphase =>
    left
    rcases h with ⟨c, hc⟩ | ⟨b, rest, he⟩
    · refine .inl ⟨c, ?_⟩
      rw [hphase]
      exact List.mem_cons_of_mem _ hc
    · obtain ⟨rfl, rfl, rfl, rfl, rfl⟩ := Phase.enqueue.inj he
      exact .of_request hphase
  | task hphase =>
    rw [runTask_eq] at h
    exact .inl h
  | complete hphase hst hq hc =>
    rcases h with ⟨c, hr⟩ | ⟨b, rest, he⟩
    · exact .inr ⟨_, _, _, c, hc, by simp [queued, hq, Entry.done], hr⟩
    · cases he
  | first hphase hc =>
    rcases h with ⟨c, hr⟩ | ⟨b, rest, he⟩
    · exact .inr ⟨_, _, _, c, hc, by simp [hphase, Phase.held], hr⟩
    · cases he

omit [DecidableEq D] in
theorem workCleanup_queued (m : Scheduler D O R σ) : m.workCleanup.queued = m.queued := by
  simp only [queued, workCleanup, workFinished]
  split
  · simp
  · split <;> simp

omit [DecidableEq D] in
theorem mem_queued_of_append {n : Scheduler D O R σ} {es : List (Entry D O R)}
    (hq : n.opQueue = m.opQueue ++ es) (hp : n.privateOpQueue = m.privateOpQueue)
    (h : x ∈ m.queued) : x ∈ n.queued := by
  simp only [queued, List.mem_append] at h ⊢
  refine h.imp (fun h => ?_) fun h => hp ▸ h
  rw [hq, List.filterMap_append]
  exact List.mem_append_left _ h

/-- An operation that is done is kept until it completes. -/
theorem Step.kept {call : Call D A R} (hs : Step P call m m') (h : x ∈ m.queued ++ m.phase.held) :
    x ∈ m'.queued ++ m'.phase.held ∨
      ∃ requests, P.complete m.state x.1 x.2 = some (m'.state, requests) ∧
        m'.phase = .requests true requests := by
  rw [List.mem_append] at h ⊢
  cases hs with
  | post hphase | immediate hphase =>
    simp only [hphase, Phase.held, List.not_mem_nil, or_false] at h
    exact .inl (.inl ((postImmediateCompletion_queued m _ _ _ _ x).mpr (.inl h)))
  | immediateExhausted hphase =>
    simp only [hphase, Phase.held, List.not_mem_nil, or_false] at h
    exact .inl (.inl ((postImmediateCompletion_queued (m.setSpeculative _ _ _) _ _ _ _ x).mpr
      (.inl h)))
  | registerDescriptor hphase | behind hphase | untried hphase | tried hphase | modify hphase
  | enqueue hphase | run hphase | noWork hphase | «return» hphase | sleep hphase | skip hphase
  | nothing hphase | notDone hphase | compensate hphase =>
    simp only [hphase, Phase.held] at h
    exact .inl h
  | deregisterDescriptor hphase =>
    simp only [hphase, Phase.held, List.not_mem_nil, or_false] at h
    exact .inl (.inl (mem_queued_of_append rfl rfl h))
  | workCleanup hphase =>
    simp only [hphase, Phase.held, List.not_mem_nil, or_false] at h
    refine .inl (.inl ?_)
    rw [← workCleanup_queued] at h
    exact h
  | task hphase hst hq =>
    simp only [hphase, Phase.held, List.not_mem_nil, or_false] at h
    refine .inl (.inl ?_)
    rw [runTask_eq]
    simp only [queued, hq, List.filterMap_cons, Entry.done, List.mem_append,
      List.filterMap_append] at h ⊢
    exact h.imp_left fun h => .inl (.inl h)
  | complete hphase hst hq hc =>
    simp only [hphase, Phase.held, List.not_mem_nil, or_false, queued, hq, List.filterMap_cons,
      Entry.done, List.cons_append, List.mem_cons] at h
    rcases h with rfl | h
    · exact .inr ⟨_, hc, rfl⟩
    · exact .inl (.inl h)
  | descriptor hphase hst hq =>
    simp only [hphase, Phase.held, List.not_mem_nil, or_false, queued, hq, List.filterMap_cons,
      Entry.done] at h
    exact .inl (.inl h)
  | done hphase | exhausted hphase =>
    rw [hphase] at h
    exact .inl (h.imp_right (List.mem_append_left _))
  | first hphase hc =>
    simp only [hphase, Phase.held, List.mem_cons] at h
    rcases h with h | rfl | h
    · exact .inl (.inl (mem_queued_of_append rfl rfl h))
    · exact .inr ⟨_, hc, rfl⟩
    · refine .inl (.inl (List.mem_append_left _ ?_))
      rw [enter, postDeferredCompletions, List.filterMap_append, filterMap_entries]
      exact List.mem_append_right _ h

/-- Asio takes the call for one that blocks or is exhausted, or it is stale. -/
def Blind (m : Scheduler D O R σ) (k : Kernel D) (d : D) (j : OpType) : Prop :=
  (m.descriptors d).trySpeculative j = false ∨ k.stale d j = true

/-- What has made it so: the try of an operation that was done and exhausted, or was not done
and left something behind. -/
def Blinded (P : Program D O A R σ) (lasting : A → Prop) (m m' : Scheduler D O R σ) (d : D)
    (j : OpType) : Prop :=
  m'.state = m.state ∧ ∃ o a, (m.Starting d j o ∨ o ∈ (m.descriptors d).opQueue j) ∧
    ((∃ r, P.perform m.state o a = some (.doneAndExhausted r) ∧
        (o, r) ∈ m'.queued ++ m'.phase.held) ∨
      (P.perform m.state o a = some .notDone ∧ lasting a))

/-- The scheduler loses sight of what its calls would return at one place only, and there by
the outcome of a call. -/
theorem Step.blind {call : Call D A R} {lasting : A → Prop} {k k' : Kernel D}
    (hs : Step P call m m') (hk : Kernel.Serves lasting call k k') (h : m'.Blind k' d j) :
    m.Blind k d j ∨ m.Blinded P lasting m' d j := by
  have hstale : (∀ a attempt, call ≠ .perform d j a attempt) → call ≠ .add d →
      k'.stale d j = k.stale d j := fun hperform hadd => by
    rcases hk.keeps with ⟨a, attempt, he⟩ | he | ⟨_, hstale⟩
    · exact absurd he (hperform a attempt)
    · exact absurd he hadd
    · exact hstale
  cases hs.change d with
  | same hd hperform hadd =>
    rw [Blind, hd, hstale (hperform j) hadd] at h
    exact .inl h
  | waits _ _ _ _ hd hcall =>
    rw [Blind, hd, hstale (fun a attempt he => ?_) fun he => ?_] at h
    · exact .inl h
    · rcases hcall with rfl | rfl <;> cases he
    · rcases hcall with rfl | rfl <;> cases he
  | reports _ hd | deregisters hd =>
    rw [Blind, hd, hstale (by simp) (by simp)] at h
    exact .inl h
  | relaxes _ hd =>
    rw [Blind, hd, hstale (by simp) (by simp)] at h
    simp only [Function.update_apply] at h
    split at h
    · exact .inl (.inr (h.resolve_left (by simp)))
    · exact .inl h
  | registers hd =>
    cases hk
    simp [Blind, hd, Kernel.add] at h
  | @tries j' a attempt o waiting b hplace hp hstate _ hd hb hmem =>
    by_cases hj : j = j'
    · subst hj
      have hplace := hplace.imp (fun h => h.1.starting) And.left
      have hblind : b = true → k'.stale d j = true := fun hb => h.resolve_left (by simp [hd, hb])
      cases attempt with
      | notDone =>
        refine .inr ⟨hstate, o, a, hplace, .inr ⟨hp, hk.stale_notDone (hblind ?_)⟩⟩
        by_contra hne
        obtain ⟨_, he⟩ := hb (by simpa using hne)
        cases he
      | done r =>
        refine .inl (.inr (hk.stale_done ▸ hblind ?_))
        by_contra hne
        obtain ⟨_, he⟩ := hb (by simpa using hne)
        cases he
      | doneAndExhausted r => exact .inr ⟨hstate, o, a, hplace, .inl ⟨r, hp, hmem r rfl⟩⟩
    · rw [Blind, hd, hstale (fun a attempt he => ?_) (by simp)] at h
      · simp only [Function.update_of_ne hj] at h
        exact .inl h
      · exact hj (Call.perform.inj he).2.1.symm

/-- The descriptor is registered, and is not to be registered again by the running code. -/
def Held (m : Scheduler D O R σ) (d : D) : Prop :=
  d ∈ m.registeredDescriptors ∧
    ∀ request ∈ m.phase.requestsLeft, request ≠ (.registerDescriptor d : Request D O R)

theorem Step.held {call : Call D A R} (hs : Step P call m m') (h : m'.Held d) :
    m.Held d ∨ call = .add d ∧ (m'.descriptors d).trySpeculative = fun _ => true := by
  obtain ⟨hd, hrequests⟩ := h
  have hrest : ∀ {b : Bool} {request : Request D O R} {rest : List (Request D O R)},
      m.phase = .requests b (request :: rest) → request ≠ .registerDescriptor d →
      (∀ request ∈ rest, request ≠ .registerDescriptor d) →
      ∀ request ∈ m.phase.requestsLeft, request ≠ .registerDescriptor d := by
    intro b request rest hphase hne hrest request' hmem
    rw [hphase] at hmem
    rcases List.mem_cons.mp hmem with rfl | hmem
    · exact hne
    · exact hrest _ hmem
  cases hs with
  | post hphase | immediate hphase =>
    rw [enter, (postImmediateCompletion_descriptors m _ _ _ _).2] at hd
    exact .inl ⟨hd, hrest hphase (by simp) hrequests⟩
  | immediateExhausted hphase =>
    rw [enter, (postImmediateCompletion_descriptors (m.setSpeculative _ _ _) _ _ _ _).2] at hd
    exact .inl ⟨hd, hrest hphase (by simp) hrequests⟩
  | registerDescriptor hphase =>
    rename_i d' _ _ _
    by_cases hne : d = d'
    · subst hne
      refine .inr ⟨rfl, ?_⟩
      simp [Scheduler.registerDescriptor]
    · refine .inl ⟨Finset.mem_of_mem_insert_of_ne hd hne, hrest hphase ?_ hrequests⟩
      exact fun he => hne (Request.registerDescriptor.inj he).symm
  | deregisterDescriptor hphase =>
    exact .inl ⟨Finset.mem_of_mem_erase hd, hrest hphase (by simp) hrequests⟩
  | behind hphase | untried hphase | tried hphase =>
    exact .inl ⟨hd, hrest hphase (by simp) hrequests⟩
  | modify hphase | enqueue hphase =>
    refine .inl ⟨hd, fun request hmem => hrequests request ?_⟩
    rwa [hphase] at hmem
  | workCleanup hphase =>
    rw [enter, (workCleanup_descriptors m).2] at hd
    refine .inl ⟨hd, fun request hmem => ?_⟩
    rw [hphase] at hmem
    cases hmem
  | task hphase =>
    rw [runTask_eq] at hd
    refine .inl ⟨hd, fun request hmem => ?_⟩
    rw [hphase] at hmem
    cases hmem
  | run hphase | noWork hphase | «return» hphase | sleep hphase | complete hphase
  | descriptor hphase | skip hphase | nothing hphase | notDone hphase | done hphase
  | exhausted hphase | compensate hphase | first hphase =>
    refine .inl ⟨hd, fun request hmem => ?_⟩
    rw [hphase] at hmem
    cases hmem

/-- What stands behind did so before, or comes with a completion. -/
theorem Step.behind_or {call : Call D A R} (hs : Step P call m m') :
    m'.phase.behind <:+ m.phase.behind ∨
      ∃ o r requests, P.complete m.state o r = some (m'.state, requests) ∧
        m'.phase = .requests true requests := by
  cases hs with
  | complete _ _ _ hc | first _ hc => exact .inr ⟨_, _, _, hc, rfl⟩
  | task hphase =>
    rw [runTask_eq]
    exact .inl List.suffix_rfl
  | post hphase | registerDescriptor hphase | deregisterDescriptor hphase | behind hphase
  | immediate hphase | immediateExhausted hphase | modify hphase | enqueue hphase =>
    rw [hphase]
    exact .inl (List.tail_suffix _)
  | untried hphase | tried hphase =>
    rw [hphase]
    exact .inl List.suffix_rfl
  | run hphase | noWork hphase | workCleanup hphase | «return» hphase | sleep hphase
  | descriptor hphase | skip hphase | nothing hphase | notDone hphase | done hphase
  | exhausted hphase | compensate hphase =>
    exact .inl (List.nil_suffix)

omit [DecidableEq D] in
theorem Starts.wanted (h : m.Starts d j o) : o ∈ m.phase.wanted := by
  rcases h with ⟨b, c, rest, hphase⟩ | ⟨b, rest, hphase⟩
  · rw [hphase]
    exact Multiset.mem_coe.mpr List.mem_cons_self
  · rw [hphase]
    exact Multiset.mem_cons_self o (wantedBy rest)

/-- Sockets are registered only at the head of what the running code has to ask for. -/
def Tidy (m : Scheduler D O R σ) : Prop :=
  ∀ d, (.registerDescriptor d : Request D O R) ∉ m.phase.behind

omit [DecidableEq D] in
theorem Tidy.held (h : Tidy m) (hd : d ∈ m.registeredDescriptors) (hs : m.Starts d' j o) :
    m.Held d := by
  refine ⟨hd, fun request hr => ?_⟩
  rintro rfl
  have hbehind := h d
  rcases hs with ⟨b, c, rest, hphase⟩ | ⟨b, rest, hphase⟩
  · rw [hphase] at hr hbehind
    exact hbehind ((List.mem_cons.mp hr).resolve_left (by simp))
  · rw [hphase] at hr hbehind
    exact hbehind hr

/-- No two operations wait in one place. -/
def Single (m : Scheduler D O R σ) : Prop := ∀ d j, ((m.descriptors d).opQueue j).length ≤ 1

omit [DecidableEq D] in
theorem Single.opQueue (h : Single m) (ho : o ∈ (m.descriptors d).opQueue j) :
    (m.descriptors d).opQueue j = [o] := by
  have hle := h d j
  have hpos := List.length_pos_of_mem ho
  obtain ⟨o', ho'⟩ := List.length_eq_one_iff.mp (le_antisymm hle hpos)
  rw [ho'] at ho ⊢
  rw [List.mem_singleton.mp ho]

/-- Only one operation waits where operations are started only at empty queues. -/
theorem Single.step {call : Call D A R} (h : Single m) (hs : Step P call m m')
    (hstarts : ∀ d j o, m.Starts d j o → (m.descriptors d).opQueue j = []) : Single m' := by
  intro d j
  cases hs.change d with
  | same hd | relaxes _ hd | reports _ hd | registers hd =>
    rw [hd]
    exact h d j
  | waits j' o b hst hd =>
    simp only [hd, Function.update_apply]
    split
    · rw [hstarts d j' o hst]
      exact le_refl _
    · exact h d j
  | tries o waiting b _ _ _ hw hd =>
    simp only [hd, Function.update_apply]
    split
    · rename_i hj
      subst hj
      exact hw.length_le.trans (h d j)
    · exact h d j
  | deregisters hd =>
    rw [hd]
    exact Nat.zero_le _

end Places
end Scheduler
end Horcrux.Asio
