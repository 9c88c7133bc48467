import Horcrux.Scheduler
import Horcrux.Lib.Agents
import Mathlib.Algebra.BigOperators.Group.Finset.Basic
import Mathlib.Algebra.Order.BigOperators.Group.Multiset
import Mathlib.Tactic.Abel

namespace Horcrux.Asio
variable {D O A R σ : Type}

def Entry.done : Entry D O R → Option (O × R)
  | .op o r => some (o, r)
  | _ => none

def Entry.isTask : Entry D O R → Bool
  | .task => true
  | _ => false

def Entry.ready : Entry D O R → Option D
  | .descriptor d => some d
  | _ => none

/-- The operation that a request starts. -/
def Request.op : Request D O R → Option O
  | .post o _ _ => some o
  | .startOp _ _ o _ => some o
  | _ => none

def wantedBy (requests : List (Request D O R)) : Multiset O := ↑(requests.filterMap Request.op)

namespace Phase

/-- The operations that are still to be started. -/
def wanted : Phase D O R → Multiset O
  | .requests _ rest => wantedBy rest
  | .enqueue _ _ _ o rest => o ::ₘ wantedBy rest
  | _ => 0

/-- The operations that the thread holds in its hands. -/
def held : Phase D O R → List (O × R)
  | .performIo _ _ _ ops => ops
  | _ => []

def requestsLeft : Phase D O R → List (Request D O R)
  | .requests _ rest => rest
  | .enqueue _ _ _ _ rest => rest
  | _ => []

/-- A completed operation still counts as work while its handler runs. -/
def handling : Phase D O R → Int
  | .requests inRun _ => if inRun then 1 else 0
  | .enqueue inRun _ _ _ _ => if inRun then 1 else 0
  | _ => 0

end Phase

@[simp] theorem wantedBy_nil : wantedBy ([] : List (Request D O R)) = 0 := rfl

@[simp] theorem wantedBy_post (o : O) (r : R) (c : Bool) (rest : List (Request D O R)) :
    wantedBy (.post o r c :: rest) = o ::ₘ wantedBy rest := rfl

@[simp] theorem wantedBy_startOp (d : D) (j : OpType) (o : O) (c : Bool)
    (rest : List (Request D O R)) : wantedBy (.startOp d j o c :: rest) = o ::ₘ wantedBy rest := rfl

@[simp] theorem wantedBy_registerDescriptor (d : D) (rest : List (Request D O R)) :
    wantedBy (.registerDescriptor d :: rest) = wantedBy rest := rfl

@[simp] theorem wantedBy_deregisterDescriptor (d : D) (rest : List (Request D O R)) :
    wantedBy (.deregisterDescriptor d :: rest) = wantedBy rest := rfl

@[simp] theorem filterMap_entries (ops : List (O × R)) :
    (Scheduler.entries ops : List (Entry D O R)).filterMap Entry.done = ops := by
  induction ops with
  | nil => rfl
  | cons x ops ih => simpa [Scheduler.entries, Entry.done] using ih

namespace Scheduler
variable {P : Program D O A R σ} {m m' : Scheduler D O R σ}

/-- The operations that are done and stand in a queue. -/
def queued (m : Scheduler D O R σ) : List (O × R) :=
  m.opQueue.filterMap Entry.done ++ m.privateOpQueue

/-- The operations that wait for events of the descriptor. -/
def awaitingAt (m : Scheduler D O R σ) (d : D) : Multiset O :=
  ↑((m.descriptors d).opQueue .read ++ (m.descriptors d).opQueue .write)

def awaiting (m : Scheduler D O R σ) : Multiset O := ∑ d ∈ m.registeredDescriptors, m.awaitingAt d

/-- The operations in the queues of the scheduler and of the reactor. -/
def stock (m : Scheduler D O R σ) : Multiset O := ↑(m.queued.map Prod.fst) + m.awaiting

/-- The operations that were started and have not been completed. -/
def operations (m : Scheduler D O R σ) : Multiset O := ↑(m.phase.held.map Prod.fst) + m.stock

/-- The same and those that the running code will start. -/
def pending (m : Scheduler D O R σ) : Multiset O := m.phase.wanted + m.operations

/-- What the two counts of the scheduler say together. -/
def work (m : Scheduler D O R σ) : Int := m.outstandingWork + m.privateOutstandingWork

/-- Operations wait at registered descriptors only. -/
structure Registered (m : Scheduler D O R σ) : Prop where
  waiting : ∀ d, d ∉ m.registeredDescriptors → ∀ j, (m.descriptors d).opQueue j = []
  entering : ∀ b d j o rest, m.phase = .enqueue b d j o rest →
    d ∈ m.registeredDescriptors ∧ (m.descriptors d).opQueue j = []

theorem awaitingAt_eq_zero (h : ∀ j, (m.descriptors d).opQueue j = []) : m.awaitingAt d = 0 := by
  simp [awaitingAt, h]

variable [DecidableEq D]

@[simp] theorem modifyDescriptor_self (m : Scheduler D O R σ) (d : D)
    (f : DescriptorState O → DescriptorState O) :
    (m.modifyDescriptor d f).descriptors d = f (m.descriptors d) := Function.update_self _ _ _

theorem modifyDescriptor_of_ne (h : d' ≠ d) (f : DescriptorState O → DescriptorState O) :
    (m.modifyDescriptor d f).descriptors d' = m.descriptors d' := Function.update_of_ne h _ _

/-- The queues after a change at one descriptor. -/
theorem awaiting_of_update (hr : m'.registeredDescriptors = m.registeredDescriptors)
    (hd : d ∈ m.registeredDescriptors)
    (h : ∀ d', d' ≠ d → m'.awaitingAt d' = m.awaitingAt d') :
    m'.awaiting + m.awaitingAt d = m.awaiting + m'.awaitingAt d := by
  have hrest : ∑ x ∈ m.registeredDescriptors.erase d, m'.awaitingAt x =
      ∑ x ∈ m.registeredDescriptors.erase d, m.awaitingAt x :=
    Finset.sum_congr rfl fun x hx => h x (Finset.ne_of_mem_erase hx)
  rw [awaiting, awaiting, hr, ← Finset.add_sum_erase _ _ hd,
    ← Finset.add_sum_erase _ m.awaitingAt hd, hrest]
  abel

omit [DecidableEq D] in
theorem awaiting_congr (hr : m'.registeredDescriptors = m.registeredDescriptors)
    (h : ∀ d j, (m'.descriptors d).opQueue j = (m.descriptors d).opQueue j) :
    m'.awaiting = m.awaiting := by
  rw [awaiting, awaiting, hr]
  exact Finset.sum_congr rfl fun d _ => by rw [awaitingAt, awaitingAt, h, h]

/-- What a change of the descriptor leaves alone. -/
theorem modifyDescriptor_keeps {f : DescriptorState O → DescriptorState O}
    (g : DescriptorState O → α) (hf : ∀ ds, g (f ds) = g ds) (d' : D) :
    g ((m.modifyDescriptor d f).descriptors d') = g (m.descriptors d') := by
  by_cases h : d' = d
  · subst h
    rw [modifyDescriptor_self, hf]
  · rw [modifyDescriptor_of_ne h]

theorem setOps_opQueue (m : Scheduler D O R σ) (d : D) (j : OpType) (ops : List O) :
    ((m.setOps d j ops).descriptors d).opQueue =
      Function.update (m.descriptors d).opQueue j ops := by
  rw [setOps, modifyDescriptor_self]

/-- An operation more in the queue of a descriptor. -/
theorem setOps_awaitingAt_append (m : Scheduler D O R σ) (d : D) (j : OpType) (o : O) :
    (m.setOps d j ((m.descriptors d).opQueue j ++ [o])).awaitingAt d = o ::ₘ m.awaitingAt d := by
  rw [awaitingAt, awaitingAt, setOps_opQueue]
  cases j <;> simp [← Multiset.coe_add, ← Multiset.singleton_add] <;> abel

/-- The first operation leaves the queue of its descriptor. -/
theorem setOps_awaitingAt_tail (h : (m.descriptors d).opQueue j = o :: os) :
    m.awaitingAt d = o ::ₘ (m.setOps d j os).awaitingAt d := by
  rw [awaitingAt, awaitingAt, setOps_opQueue]
  cases j <;> simp [h]

section Stock

omit [DecidableEq D] in
@[simp] theorem enter_phase (m : Scheduler D O R σ) (phase : Phase D O R) :
    (m.enter phase).phase = phase := rfl

omit [DecidableEq D] in
@[simp] theorem enter_descriptors (m : Scheduler D O R σ) (phase : Phase D O R) :
    (m.enter phase).descriptors = m.descriptors := rfl

omit [DecidableEq D] in
@[simp] theorem enter_work (m : Scheduler D O R σ) (phase : Phase D O R) :
    (m.enter phase).work = m.work := rfl

omit [DecidableEq D] in
theorem compensatingWorkStarted_work (m : Scheduler D O R σ) :
    m.compensatingWorkStarted.work = m.work + 1 := (add_assoc _ _ _).symm

omit [DecidableEq D] in
@[simp] theorem enter_stock (m : Scheduler D O R σ) (phase : Phase D O R) :
    (m.enter phase).stock = m.stock := rfl

theorem modifyDescriptor_stock {f : DescriptorState O → DescriptorState O}
    (hf : ∀ ds, (f ds).opQueue = ds.opQueue) : (m.modifyDescriptor d f).stock = m.stock := by
  have hqueued : (m.modifyDescriptor d f).queued = m.queued := rfl
  have hawaiting : (m.modifyDescriptor d f).awaiting = m.awaiting := by
    refine awaiting_congr rfl fun d' j => ?_
    rw [modifyDescriptor_keeps (·.opQueue) hf]
  rw [stock, stock, hqueued, hawaiting]

@[simp] theorem setSpeculative_stock (m : Scheduler D O R σ) (d : D) (j : OpType) (b : Bool) :
    (m.setSpeculative d j b).stock = m.stock := modifyDescriptor_stock fun _ => rfl

theorem setOps_awaitingAt_of_ne (m : Scheduler D O R σ) (j : OpType) (ops : List O)
    (h : d' ≠ d) : (m.setOps d j ops).awaitingAt d' = m.awaitingAt d' := by
  rw [awaitingAt, awaitingAt, setOps, modifyDescriptor_of_ne h]

theorem waitForEvents_stock (hd : d ∈ m.registeredDescriptors) (j : OpType) (o : O) :
    (m.waitForEvents d j o).stock = o ::ₘ m.stock := by
  have h : (m.setOps d j ((m.descriptors d).opQueue j ++ [o])).awaiting + m.awaitingAt d =
      m.awaiting + (m.setOps d j ((m.descriptors d).opQueue j ++ [o])).awaitingAt d :=
    awaiting_of_update rfl hd fun d' hne => setOps_awaitingAt_of_ne _ _ _ hne
  rw [setOps_awaitingAt_append, Multiset.add_cons, ← Multiset.cons_add,
    Multiset.add_left_inj] at h
  calc (m.waitForEvents d j o).stock
      = ↑(m.queued.map Prod.fst) +
          (m.setOps d j ((m.descriptors d).opQueue j ++ [o])).awaiting := rfl
    _ = o ::ₘ m.stock := by rw [h, Multiset.add_cons, stock]

theorem setOps_stock (hd : d ∈ m.registeredDescriptors)
    (h : (m.descriptors d).opQueue j = o :: os) : m.stock = o ::ₘ (m.setOps d j os).stock := by
  have hw : (m.setOps d j os).awaiting + m.awaitingAt d =
      m.awaiting + (m.setOps d j os).awaitingAt d :=
    awaiting_of_update rfl hd fun d' hne => setOps_awaitingAt_of_ne _ _ _ hne
  rw [setOps_awaitingAt_tail h, Multiset.add_cons, ← Multiset.cons_add,
    Multiset.add_left_inj] at hw
  calc m.stock = ↑(m.queued.map Prod.fst) + (o ::ₘ (m.setOps d j os).awaiting) := by rw [hw, stock]
    _ = o ::ₘ (m.setOps d j os).stock := by rw [Multiset.add_cons]; rfl

omit [DecidableEq D] in
theorem postImmediateCompletion_stock (m : Scheduler D O R σ) (o : O) (r : R) (c b : Bool) :
    (m.postImmediateCompletion o r c b).stock = o ::ₘ m.stock := by
  unfold postImmediateCompletion
  split
  · simp only [stock, queued, awaiting, awaitingAt, ← List.append_assoc, List.map_append,
      List.map_cons, List.map_nil, ← Multiset.coe_add, Multiset.coe_singleton]
    rw [← Multiset.singleton_add]
    abel
  · simp only [stock, queued, awaiting, awaitingAt, workStarted, List.filterMap_append,
      List.filterMap_cons, Entry.done, List.filterMap_nil, List.map_append, List.map_cons,
      List.map_nil, ← Multiset.coe_add, Multiset.coe_singleton]
    rw [← Multiset.singleton_add]
    abel

omit [DecidableEq D] in
theorem stock_of_pop (h : m.opQueue = entry :: rest) :
    m.stock = ↑(entry.done.toList.map Prod.fst) + { m with opQueue := rest }.stock := by
  cases hd : entry.done with
  | none => simp [stock, queued, awaiting, awaitingAt, h, hd]
  | some x =>
    simp only [stock, queued, awaiting, awaitingAt, h, List.filterMap_cons, hd, List.cons_append,
      List.map_cons, Option.toList_some, List.map_nil, ← Multiset.cons_coe, Multiset.coe_nil,
      Multiset.cons_add, zero_add]

omit [DecidableEq D] in
theorem postDeferredCompletions_stock (m : Scheduler D O R σ) (ops : List (O × R)) :
    (m.postDeferredCompletions ops).stock = ↑(ops.map Prod.fst) + m.stock := by
  simp only [stock, queued, awaiting, awaitingAt, postDeferredCompletions, List.filterMap_append,
    filterMap_entries, List.map_append, ← Multiset.coe_add]
  abel

omit [DecidableEq D] in
theorem workCleanup_stock (m : Scheduler D O R σ) : m.workCleanup.stock = m.stock := by
  have hawaiting : m.workCleanup.awaiting = m.awaiting := by
    simp only [workCleanup]
    split
    · rfl
    · split <;> rfl
  have hqueued : m.workCleanup.queued = m.queued := by
    simp only [queued, workCleanup, workFinished]
    split
    · simp
    · split <;> simp
  rw [stock, stock, hawaiting, hqueued]

theorem registerDescriptor_opQueue (m : Scheduler D O R σ) (d d' : D) :
    ((m.registerDescriptor d).descriptors d').opQueue = (m.descriptors d').opQueue := by
  rw [registerDescriptor, modifyDescriptor_keeps (·.opQueue)]
  exact fun _ => rfl

theorem deregisterDescriptor_of_ne (m : Scheduler D O R σ) (aborted : O → R) (h : d' ≠ d) :
    (m.deregisterDescriptor d aborted).descriptors d' = m.descriptors d' :=
  Function.update_of_ne h _ _

theorem deregisterDescriptor_opQueue (m : Scheduler D O R σ) (d : D) (aborted : O → R)
    (j : OpType) : ((m.deregisterDescriptor d aborted).descriptors d).opQueue j = [] := by
  simp [deregisterDescriptor, postDeferredCompletions]

/-- A registration that finds the queues of the descriptor empty. -/
theorem registerDescriptor_stock (hd : d ∉ m.registeredDescriptors)
    (he : ∀ j, (m.descriptors d).opQueue j = []) : (m.registerDescriptor d).stock = m.stock := by
  have hat : ∀ d', (m.registerDescriptor d).awaitingAt d' = m.awaitingAt d' := fun d' => by
    rw [awaitingAt, awaitingAt, registerDescriptor_opQueue]
  have hawaiting : (m.registerDescriptor d).awaiting = m.awaiting := by
    calc (m.registerDescriptor d).awaiting
        = ∑ x ∈ insert d m.registeredDescriptors, m.awaitingAt x :=
          Finset.sum_congr rfl fun x _ => hat x
      _ = m.awaiting := by
          rw [Finset.sum_insert hd, awaitingAt_eq_zero he, zero_add, awaiting]
  calc (m.registerDescriptor d).stock
      = ↑(m.queued.map Prod.fst) + (m.registerDescriptor d).awaiting := rfl
    _ = m.stock := by rw [hawaiting, stock]

/-- A deregistration moves the operations that wait there into the queue of the scheduler. -/
theorem deregisterDescriptor_stock (hd : d ∈ m.registeredDescriptors) (aborted : O → R) :
    (m.deregisterDescriptor d aborted).stock = m.stock := by
  have hrest : ∑ x ∈ m.registeredDescriptors.erase d,
      (m.deregisterDescriptor d aborted).awaitingAt x =
      ∑ x ∈ m.registeredDescriptors.erase d, m.awaitingAt x := by
    refine Finset.sum_congr rfl fun x hx => ?_
    rw [awaitingAt, awaitingAt, deregisterDescriptor_of_ne _ _ (Finset.ne_of_mem_erase hx)]
  have hqueued : ((m.deregisterDescriptor d aborted).queued.map Prod.fst : Multiset O) =
      ↑(m.queued.map Prod.fst) + m.awaitingAt d := by
    simp only [queued, deregisterDescriptor, postDeferredCompletions, modifyDescriptor,
      List.filterMap_append, filterMap_entries, List.map_append, List.map_map, awaitingAt,
      Function.comp_def, List.map_id', ← Multiset.coe_add]
    abel
  calc (m.deregisterDescriptor d aborted).stock
      = ↑(m.queued.map Prod.fst) + m.awaitingAt d +
          ∑ x ∈ m.registeredDescriptors.erase d, m.awaitingAt x := by
        rw [stock, hqueued, ← hrest]; rfl
    _ = m.stock := by rw [stock, awaiting, add_assoc, Finset.add_sum_erase _ _ hd]

/-- The dispatch of events changes nothing but the events of descriptors. -/
theorem dispatch_eq (events : List (D × Events)) (m : Scheduler D O R σ) (ops : List D) :
    (m.dispatch ops events).1 =
      { m with descriptors := (m.dispatch ops events).1.descriptors } := by
  induction events generalizing m ops with
  | nil => rfl
  | cons x rest ih =>
    obtain ⟨d, events⟩ := x
    simp only [dispatch]
    split
    · exact ih _ _
    · exact ih _ _

theorem dispatch_keeps (g : DescriptorState O → α)
    (hg : ∀ ds e, g { ds with taskResult := e } = g ds) (events : List (D × Events))
    (m : Scheduler D O R σ) (ops : List D) (d : D) :
    g ((m.dispatch ops events).1.descriptors d) = g (m.descriptors d) := by
  induction events generalizing m ops with
  | nil => rfl
  | cons x rest ih =>
    obtain ⟨d', events⟩ := x
    simp only [dispatch]
    split
    · rw [ih, modifyDescriptor_keeps g fun ds => hg ds _]
    · rw [ih, modifyDescriptor_keeps g fun ds => hg ds _]

theorem runTask_eq (m : Scheduler D O R σ) (events : List (D × Events)) :
    m.runTask events = { m with
      opQueue := m.opQueue ++ (m.dispatch [] events).2.map .descriptor ++ [.task]
      descriptors := (m.dispatch [] events).1.descriptors } := by
  have h := dispatch_eq events m []
  rw [runTask]
  generalize m.dispatch [] events = x at h ⊢
  obtain ⟨n, ds⟩ := x
  dsimp only at h ⊢
  rw [h]

theorem runTask_stock (m : Scheduler D O R σ) (events : List (D × Events)) :
    (m.runTask events).stock = m.stock := by
  have hawaiting : (m.runTask events).awaiting = m.awaiting := by
    rw [runTask_eq]
    exact awaiting_congr rfl fun d j =>
      dispatch_keeps (fun ds => ds.opQueue j) (fun _ _ => rfl) events m [] d
  have hqueued : (m.runTask events).queued = m.queued := by
    have hdone : ∀ ds : List D,
        (ds.map (.descriptor : D → Entry D O R)).filterMap Entry.done = [] := by
      intro ds
      simp [List.filterMap_map, Function.comp_def, Entry.done]
    rw [runTask_eq]
    simp only [queued, List.filterMap_append, hdone, List.filterMap_cons, Entry.done,
      List.filterMap_nil, List.append_nil]
  rw [stock, stock, hawaiting, hqueued]

omit [DecidableEq D] in
theorem postImmediateCompletion_state (m : Scheduler D O R σ) (o : O) (r : R) (c b : Bool) :
    (m.postImmediateCompletion o r c b).state = m.state := by
  unfold postImmediateCompletion
  split <;> rfl

omit [DecidableEq D] in
theorem workCleanup_state (m : Scheduler D O R σ) : m.workCleanup.state = m.state := by
  simp only [workCleanup, workFinished]
  split
  · rfl
  · split <;> rfl

end Stock

section Work

omit [DecidableEq D] in
theorem postImmediateCompletion_work (m : Scheduler D O R σ) (o : O) (r : R) (c b : Bool) :
    (m.postImmediateCompletion o r c b).work = m.work + 1 := by
  unfold postImmediateCompletion
  split <;> simp only [work, workStarted] <;> omega

theorem waitForEvents_work (m : Scheduler D O R σ) (d : D) (j : OpType) (o : O) :
    (m.waitForEvents d j o).work = m.work + 1 := by
  simp only [work, waitForEvents, workStarted, setOps, modifyDescriptor]
  omega

omit [DecidableEq D] in
theorem workCleanup_work (h : 0 ≤ m.privateOutstandingWork) :
    m.workCleanup.work = m.work - 1 := by
  simp only [work, workCleanup, workFinished]
  split
  · dsimp only
    omega
  · split
    · dsimp only
      omega
    · omega

theorem runTask_work (m : Scheduler D O R σ) (events : List (D × Events)) :
    (m.runTask events).work = m.work := by
  rw [runTask_eq]
  rfl

end Work

/-- What a step does to the operations and to their count, which is all that the world outside
of the scheduler can know of it. -/
inductive Effect (P : Program D O A R σ) (m m' : Scheduler D O R σ) : Prop
  | quiet : m'.state = m.state → m'.phase.wanted = m.phase.wanted →
      m'.operations = m.operations →
      m'.work - m'.phase.handling = m.work - m.phase.handling → Effect P m m'
  | starts (o : O) : m'.state = m.state → m.phase.wanted = o ::ₘ m'.phase.wanted →
      m'.operations = o ::ₘ m.operations →
      m'.work - m'.phase.handling = m.work - m.phase.handling + 1 → Effect P m m'
  | completes (o : O) (r : R) (requests : List (Request D O R)) :
      P.complete m.state o r = some (m'.state, requests) → m.phase.wanted = 0 →
      m'.phase = .requests true requests → (o, r) ∈ m.queued ++ m.phase.held →
      m.operations = o ::ₘ m'.operations →
      m'.work - m'.phase.handling = m.work - m.phase.handling - 1 → Effect P m m'

section Effects
omit [DecidableEq D]

theorem Effect.of_quiet {n : Scheduler D O R σ} {phase : Phase D O R} (hstate : n.state = m.state)
    (hstock : n.stock = m.stock) (hwork : n.work = m.work) (hheld : phase.held = m.phase.held)
    (hwanted : phase.wanted = m.phase.wanted) (hhandling : phase.handling = m.phase.handling) :
    Effect P m (n.enter phase) := by
  refine .quiet hstate hwanted ?_ ?_
  · rw [operations, operations, enter_stock, hstock, ← hheld]
    rfl
  · rw [← hwork, ← hhandling]
    rfl

theorem Effect.of_started {n : Scheduler D O R σ} {phase : Phase D O R} (o : O)
    (hstate : n.state = m.state) (hstock : n.stock = o ::ₘ m.stock) (hwork : n.work = m.work + 1)
    (hheld : phase.held = m.phase.held) (hwanted : m.phase.wanted = o ::ₘ phase.wanted)
    (hhandling : phase.handling = m.phase.handling) : Effect P m (n.enter phase) := by
  refine .starts o hstate hwanted ?_ ?_
  · rw [operations, operations, enter_stock, hstock, ← hheld, Multiset.add_cons]
    rfl
  · rw [← hhandling, show (n.enter phase).work = m.work + 1 from hwork]
    exact add_sub_right_comm _ _ _

end Effects

/-- An operation that is done leaves its descriptor for the hands of the thread. -/
theorem Effect.of_taken (hphase : m.phase = .performIo d events types ops)
    (hd : d ∈ m.registeredDescriptors) (hq : (m.descriptors d).opQueue j = o :: os) (r : R)
    (b : Bool) (types' : List OpType) :
    Effect P m (((m.setSpeculative d j b).setOps d j os).enter
      (.performIo d events types' (ops ++ [(o, r)]))) := by
  have hq' : ((m.setSpeculative d j b).descriptors d).opQueue j = o :: os := by
    rw [setSpeculative, modifyDescriptor_self]
    exact hq
  have hstock := setOps_stock (m := m.setSpeculative d j b) hd hq'
  rw [setSpeculative_stock] at hstock
  refine .quiet rfl ?_ ?_ ?_
  · simp [hphase, Phase.wanted]
  · simp only [operations, enter_phase, enter_stock, hphase, Phase.held, hstock, List.map_append,
      List.map_cons, List.map_nil, ← Multiset.coe_add, Multiset.coe_singleton]
    rw [← Multiset.singleton_add]
    abel
  · simp only [enter_phase, enter_work, hphase, Phase.handling]
    rfl

theorem Step.effect {call : Call D A R} (hs : Step P call m m') (hr : m.Registered)
    (hp : 0 ≤ m.privateOutstandingWork) : Effect P m m' := by
  have hin : ∀ {d j o os}, (m.descriptors d).opQueue j = o :: os →
      d ∈ m.registeredDescriptors := by
    intro d j o os h
    by_contra hd
    rw [hr.waiting d hd j] at h
    cases h
  cases hs with
  | post hphase | immediate hphase =>
    refine .of_started _ (postImmediateCompletion_state _ _ _ _ _)
      (postImmediateCompletion_stock _ _ _ _ _) (postImmediateCompletion_work _ _ _ _ _) ?_ ?_ ?_
    all_goals simp [hphase, Phase.held, Phase.wanted, Phase.handling]
  | immediateExhausted hphase =>
    rename_i o _ _ _ _ _ _ _ _ _ _
    refine .of_started o (postImmediateCompletion_state _ _ _ _ _) ?_
      (postImmediateCompletion_work _ _ _ _ _) ?_ ?_ ?_
    · rw [postImmediateCompletion_stock, setSpeculative_stock]
    all_goals simp [hphase, Phase.held, Phase.wanted, Phase.handling]
  | registerDescriptor hphase hd =>
    refine .of_quiet rfl (registerDescriptor_stock hd (hr.waiting _ hd)) rfl ?_ ?_ ?_
    all_goals simp [hphase, Phase.held, Phase.wanted, Phase.handling]
  | deregisterDescriptor hphase hd =>
    refine .of_quiet rfl (deregisterDescriptor_stock hd _) rfl ?_ ?_ ?_
    all_goals simp [hphase, Phase.held, Phase.wanted, Phase.handling]
  | behind hphase hd =>
    refine .of_started _ rfl (waitForEvents_stock hd _ _) (waitForEvents_work _ _ _ _) ?_ ?_ ?_
    all_goals simp [hphase, Phase.held, Phase.wanted, Phase.handling]
  | untried hphase | tried hphase =>
    refine .of_quiet rfl rfl rfl ?_ ?_ ?_
    all_goals simp [hphase, Phase.held, Phase.wanted, Phase.handling]
  | modify hphase =>
    rename_i o _ _ _
    have hd := (hr.entering _ _ _ _ _ hphase).1
    refine .of_started o rfl ?_ (waitForEvents_work _ _ _ _) ?_ ?_ ?_
    · rw [waitForEvents_stock (by exact hd), modifyDescriptor_stock]
      exact fun _ => rfl
    all_goals simp [hphase, Phase.held, Phase.wanted, Phase.handling]
  | enqueue hphase =>
    have hd := (hr.entering _ _ _ _ _ hphase).1
    refine .of_started _ rfl (waitForEvents_stock hd _ _) (waitForEvents_work _ _ _ _) ?_ ?_ ?_
    all_goals simp [hphase, Phase.held, Phase.wanted, Phase.handling]
  | run hphase | noWork hphase =>
    refine .of_quiet rfl rfl rfl ?_ ?_ ?_
    all_goals simp [hphase, Phase.held, Phase.wanted, Phase.handling]
  | workCleanup hphase =>
    refine .quiet (workCleanup_state m) ?_ ?_ ?_
    · simp [hphase, Phase.wanted]
    · simp [operations, hphase, Phase.held, workCleanup_stock]
    · simp [hphase, Phase.handling, workCleanup_work hp]
  | «return» hphase | sleep hphase =>
    refine .of_quiet rfl rfl rfl ?_ ?_ ?_
    all_goals simp [hphase, Phase.held, Phase.wanted, Phase.handling]
  | task hphase hst hq =>
    refine .quiet ?_ ?_ ?_ ?_
    · rw [runTask_eq]
    · rw [runTask_eq]
    · rw [operations, operations, runTask_stock, stock_of_pop hq, runTask_eq]
      simp [Entry.done]
    · rw [runTask_work, runTask_eq]
      rfl
  | complete hphase hst hq hc =>
    refine .completes _ _ _ hc ?_ rfl ?_ ?_ ?_
    · simp [hphase, Phase.wanted]
    · simp [queued, hq, Entry.done]
    · have hstock := stock_of_pop hq
      simp only [Entry.done, Option.toList_some, List.map_cons, List.map_nil,
        Multiset.coe_singleton, Multiset.singleton_add] at hstock
      simp only [operations, hphase, Phase.held, List.map_nil, Multiset.coe_nil, zero_add, hstock,
        enter_phase, enter_stock]
      rfl
    · simp only [enter_phase, enter_work, hphase, Phase.handling, if_true, sub_zero]
      rfl
  | descriptor hphase hst hq =>
    refine .of_quiet rfl ?_ rfl ?_ ?_ ?_
    · simp [stock_of_pop hq, Entry.done]
    all_goals simp [hphase, Phase.held, Phase.wanted, Phase.handling]
  | skip hphase =>
    refine .of_quiet rfl rfl rfl ?_ ?_ ?_
    all_goals simp [hphase, Phase.held, Phase.wanted, Phase.handling]
  | nothing hphase | notDone hphase =>
    refine .of_quiet rfl (setSpeculative_stock _ _ _ _) rfl ?_ ?_ ?_
    all_goals simp [hphase, Phase.held, Phase.wanted, Phase.handling]
  | done hphase he hq | exhausted hphase he hq => exact .of_taken hphase (hin hq) hq _ _ _
  | compensate hphase =>
    refine .quiet rfl ?_ ?_ ?_
    · simp [hphase, Phase.wanted]
    · simp [operations, hphase, Phase.held]
      rfl
    · simp [hphase, Phase.handling, compensatingWorkStarted_work]
  | first hphase hc =>
    refine .completes _ _ _ hc ?_ rfl ?_ ?_ ?_
    · simp [hphase, Phase.wanted]
    · simp [hphase, Phase.held]
    · simp only [operations, hphase, Phase.held, List.map_cons, List.map_nil, Multiset.coe_nil,
        zero_add, enter_phase, enter_stock, ← Multiset.cons_coe, Multiset.cons_add]
      rw [← postDeferredCompletions_stock]
      rfl
    · simp only [enter_phase, enter_work, hphase, Phase.handling, if_true, sub_zero]
      rfl

section Registered

omit [DecidableEq D] in
theorem Registered.enter {n : Scheduler D O R σ} {phase : Phase D O R} (h : m.Registered)
    (hreg : n.registeredDescriptors = m.registeredDescriptors)
    (hops : ∀ d, d ∉ m.registeredDescriptors →
      (n.descriptors d).opQueue = (m.descriptors d).opQueue)
    (hphase : ∀ b d j o rest, phase ≠ .enqueue b d j o rest) : (n.enter phase).Registered where
  waiting d hd j := by
    rw [show (n.enter phase).registeredDescriptors = m.registeredDescriptors from hreg] at hd
    exact (congrFun (hops d hd) j).trans (h.waiting d hd j)
  entering b d j o rest he := absurd he (hphase b d j o rest)

theorem setOps_opQueue_of_ne (m : Scheduler D O R σ) (j : OpType) (ops : List O) (h : d' ≠ d) :
    ((m.setOps d j ops).descriptors d').opQueue = (m.descriptors d').opQueue := by
  rw [setOps, modifyDescriptor_of_ne h]

omit [DecidableEq D] in
theorem workCleanup_descriptors (m : Scheduler D O R σ) :
    m.workCleanup.descriptors = m.descriptors ∧
      m.workCleanup.registeredDescriptors = m.registeredDescriptors := by
  simp only [workCleanup, workFinished]
  split
  · exact ⟨rfl, rfl⟩
  · split <;> exact ⟨rfl, rfl⟩

omit [DecidableEq D] in
theorem postImmediateCompletion_descriptors (m : Scheduler D O R σ) (o : O) (r : R) (c b : Bool) :
    (m.postImmediateCompletion o r c b).descriptors = m.descriptors ∧
      (m.postImmediateCompletion o r c b).registeredDescriptors = m.registeredDescriptors := by
  unfold postImmediateCompletion
  split <;> exact ⟨rfl, rfl⟩

theorem Step.registered {call : Call D A R} (hs : Step P call m m') (h : m.Registered) :
    m'.Registered := by
  have hin : ∀ {d j o os}, (m.descriptors d).opQueue j = o :: os →
      d ∈ m.registeredDescriptors := by
    intro d j o os hq
    by_contra hd
    rw [h.waiting d hd j] at hq
    cases hq
  have hset : ∀ {d j o os}, (m.descriptors d).opQueue j = o :: os → ∀ b d', d' ∉
      m.registeredDescriptors → (((m.setSpeculative d j b).setOps d j os).descriptors d').opQueue =
        (m.descriptors d').opQueue := by
    intro d j o os hq b d' hd'
    have hne : d' ≠ d := fun he => hd' (he ▸ hin hq)
    rw [setOps_opQueue_of_ne _ _ _ hne, setSpeculative, modifyDescriptor_of_ne hne]
  have hwait : ∀ {d}, d ∈ m.registeredDescriptors → ∀ (n : Scheduler D O R σ) j o d', d' ∉
      m.registeredDescriptors → ((n.waitForEvents d j o).descriptors d').opQueue =
        (n.descriptors d').opQueue := fun hd n j o d' hd' =>
    setOps_opQueue_of_ne _ _ _ fun he => hd' (he ▸ hd)
  cases hs with
  | post hphase | immediate hphase =>
    obtain ⟨hd, hr⟩ := postImmediateCompletion_descriptors m _ _ _ _
    exact h.enter hr (fun d _ => by rw [hd]) (by simp)
  | immediateExhausted hphase =>
    obtain ⟨hd, hr⟩ := postImmediateCompletion_descriptors (m.setSpeculative _ _ _) _ _ _ _
    refine h.enter hr (fun d _ => ?_) (by simp)
    rw [hd, setSpeculative, modifyDescriptor_keeps (·.opQueue)]
    exact fun _ => rfl
  | registerDescriptor hphase hd =>
    refine ⟨fun d' hd' j => ?_, by simp⟩
    have hnot : d' ∉ m.registeredDescriptors := fun hm => hd' (Finset.mem_insert_of_mem hm)
    exact (congrFun (registerDescriptor_opQueue m _ d') j).trans (h.waiting d' hnot j)
  | deregisterDescriptor hphase hd =>
    rename_i d _ _
    refine ⟨fun d' hd' j => ?_, by simp⟩
    by_cases hne : d' = d
    · subst hne
      exact deregisterDescriptor_opQueue m d' P.aborted j
    · have hnot : d' ∉ m.registeredDescriptors := fun hm => hd' (Finset.mem_erase.mpr ⟨hne, hm⟩)
      rw [enter_descriptors, deregisterDescriptor_of_ne _ _ hne]
      exact h.waiting d' hnot j
  | behind hphase hd => exact h.enter rfl (hwait hd m _ _) (by simp)
  | untried hphase hd hq | tried hphase hd hq =>
    refine ⟨h.waiting, ?_⟩
    rintro b d j o rest ⟨⟩
    exact ⟨hd, hq⟩
  | modify hphase =>
    have hd := (h.entering _ _ _ _ _ hphase).1
    refine h.enter rfl (fun d' hd' => ?_) (by simp)
    rw [hwait hd _ _ _ _ hd', modifyDescriptor_keeps (·.opQueue)]
    exact fun _ => rfl
  | enqueue hphase => exact h.enter rfl (hwait (h.entering _ _ _ _ _ hphase).1 m _ _) (by simp)
  | run | noWork | «return» | sleep | descriptor | skip | complete | compensate | first =>
    exact h.enter rfl (fun _ _ => rfl) (by simp)
  | workCleanup hphase =>
    obtain ⟨hd, hr⟩ := workCleanup_descriptors m
    exact h.enter hr (fun d _ => by rw [hd]) (by simp)
  | task hphase hst hq =>
    rw [runTask_eq]
    refine ⟨fun d hd j => ?_, fun b d j o rest he => ?_⟩
    · exact (dispatch_keeps (fun ds => ds.opQueue j) (fun _ _ => rfl) _ _ _ d).trans
        (h.waiting d hd j)
    · rw [hphase] at he
      cases he
  | nothing hphase | notDone hphase =>
    refine h.enter rfl (fun d _ => ?_) (by simp)
    rw [setSpeculative, modifyDescriptor_keeps (·.opQueue)]
    exact fun _ => rfl
  | done hphase he hq | exhausted hphase he hq => exact h.enter rfl (hset hq _) (by simp)

end Registered

section Queue

/-- The task stands in the queue once, and no descriptor behind it or twice. -/
inductive Ordered : List (Entry D O R) → Prop
  | mk (front back : List (Entry D O R)) : (∀ e ∈ front, e.isTask = false) →
      (∀ e ∈ back, e.done.isSome) → (front.filterMap Entry.ready).Nodup →
      Ordered (front ++ .task :: back)

omit [DecidableEq D] in
theorem Ordered.append_entries {q : List (Entry D O R)} (h : Ordered q) (ops : List (O × R)) :
    Ordered (q ++ entries ops) := by
  obtain ⟨front, back, hfront, hback, hnodup⟩ := h
  rw [List.append_assoc, List.cons_append]
  refine .mk front _ hfront (fun e he => ?_) hnodup
  rcases List.mem_append.mp he with he | he
  · exact hback e he
  · obtain ⟨x, _, rfl⟩ := List.mem_map.mp he
    rfl

omit [DecidableEq D] in
theorem Ordered.ne_nil {q : List (Entry D O R)} (h : Ordered q) : q ≠ [] := by
  obtain ⟨front, back, _⟩ := h
  simp

omit [DecidableEq D] in
/-- No descriptor stands behind the task. -/
theorem Ordered.behind_task {q : List (Entry D O R)} (h : Ordered (.task :: q)) :
    ∀ e ∈ q, e.done.isSome := by
  generalize hq : Entry.task :: q = q' at h
  obtain ⟨front, back, hfront, hback, _⟩ := h
  cases front with
  | nil =>
    obtain ⟨_, rfl⟩ := List.cons.inj hq
    exact hback
  | cons e front =>
    obtain ⟨rfl, _⟩ := List.cons.inj hq
    cases hfront _ List.mem_cons_self

omit [DecidableEq D] in
theorem Ordered.tail {e : Entry D O R} {q : List (Entry D O R)} (h : Ordered (e :: q))
    (he : e.isTask = false) : Ordered q := by
  generalize hq : e :: q = q' at h
  obtain ⟨front, back, hfront, hback, hnodup⟩ := h
  cases front with
  | nil =>
    obtain ⟨rfl, _⟩ := List.cons.inj hq
    cases he
  | cons e' front =>
    obtain ⟨_, rfl⟩ := List.cons.inj hq
    refine .mk front back (fun x hx => hfront x (List.mem_cons_of_mem _ hx)) hback ?_
    cases hr : e'.ready with
    | none => simpa [hr] using hnodup
    | some d =>
      rw [List.filterMap_cons_some hr] at hnodup
      exact hnodup.of_cons

theorem dispatch_nodup (events : List (D × Events)) (m : Scheduler D O R σ) {ops : List D}
    (h : ops.Nodup) : (m.dispatch ops events).2.Nodup := by
  induction events generalizing m ops with
  | nil => exact h
  | cons x rest ih =>
    obtain ⟨d, events⟩ := x
    simp only [dispatch]
    split
    · rename_i hd
      exact ih _ (List.nodup_append.mpr ⟨h, List.nodup_singleton d, by
        rintro x hx y hy rfl
        exact hd (List.mem_singleton.mp hy ▸ hx)⟩)
    · exact ih _ h

theorem Ordered.runTask {m : Scheduler D O R σ} (h : ∀ e ∈ m.opQueue, e.done.isSome)
    (events : List (D × Events)) : Ordered (m.runTask events).opQueue := by
  rw [runTask_eq]
  refine .mk _ [] (fun e he => ?_) (by simp) ?_
  · rcases List.mem_append.mp he with he | he
    · have hdone := h e he
      cases e with
      | task => cases hdone
      | descriptor d => rfl
      | op o r => rfl
    · obtain ⟨x, _, rfl⟩ := List.mem_map.mp he
      rfl
  · have hnone : m.opQueue.filterMap Entry.ready = [] := by
      rw [List.filterMap_eq_nil_iff]
      intro e he
      have hdone := h e he
      cases e with
      | task => cases hdone
      | descriptor d => cases hdone
      | op o r => rfl
    rw [List.filterMap_append, hnone, List.nil_append, List.filterMap_map]
    simpa [Function.comp_def, Entry.ready] using dispatch_nodup events m List.nodup_nil

/-- What a step does to the queue of the scheduler. It takes out the first entry or none, and
only the task puts in anything but operations. -/
inductive Moves (m m' : Scheduler D O R σ) : Prop
  | append (ops : List (O × R)) : m'.opQueue = m.opQueue ++ entries ops →
      m.phase ≠ .idle ∨ m.stopped = true ∨ m.opQueue = [] → Moves m m'
  | pop : m.phase = .idle → m.opQueue = e :: m'.opQueue → e.isTask = false → Moves m m'
  | task (events : List (D × Events)) : m.phase = .idle → m.opQueue = .task :: rest →
      m' = { m with opQueue := rest }.runTask events → Moves m m'

omit [DecidableEq D] in
theorem postImmediateCompletion_opQueue (m : Scheduler D O R σ) (o : O) (r : R) (c b : Bool) :
    ∃ ops, (m.postImmediateCompletion o r c b).opQueue = m.opQueue ++ entries ops := by
  unfold postImmediateCompletion
  split
  · exact ⟨[], (List.append_nil _).symm⟩
  · exact ⟨[(o, r)], rfl⟩

omit [DecidableEq D] in
theorem workCleanup_opQueue (m : Scheduler D O R σ) :
    m.workCleanup.opQueue = m.opQueue ++ entries m.privateOpQueue := by
  simp only [workCleanup, workFinished]
  split
  · rfl
  · split <;> rfl

theorem Step.moves {call : Call D A R} (hs : Step P call m m') : Moves m m' := by
  have hsame : ∀ {m' : Scheduler D O R σ}, m'.opQueue = m.opQueue →
      m.phase ≠ .idle ∨ m.stopped = true ∨ m.opQueue = [] → Moves m m' := fun hq h =>
    .append [] (hq.trans (List.append_nil _).symm) h
  cases hs with
  | post hphase | immediate hphase =>
    obtain ⟨ops, hops⟩ := postImmediateCompletion_opQueue m _ _ _ _
    exact .append ops hops (.inl (by simp [hphase]))
  | immediateExhausted hphase =>
    obtain ⟨ops, hops⟩ := postImmediateCompletion_opQueue (m.setSpeculative _ _ _) _ _ _ _
    exact .append ops hops (.inl (by simp [hphase]))
  | deregisterDescriptor hphase => exact .append _ rfl (.inl (by simp [hphase]))
  | workCleanup hphase => exact .append _ (workCleanup_opQueue m) (.inl (by simp [hphase]))
  | first hphase => exact .append _ rfl (.inl (by simp [hphase]))
  | registerDescriptor hphase | behind hphase | untried hphase | tried hphase | modify hphase
  | enqueue hphase | run hphase | noWork hphase | skip hphase | nothing hphase | notDone hphase
  | done hphase | exhausted hphase | compensate hphase =>
    exact hsame rfl (.inl (by simp [hphase]))
  | «return» hphase hst => exact hsame rfl (.inr (.inl hst))
  | sleep hphase hst hq => exact hsame rfl (.inr (.inr hq))
  | task hphase hst hq => exact .task _ hphase hq rfl
  | complete hphase hst hq | descriptor hphase hst hq => exact .pop hphase hq rfl

theorem Moves.ordered (h : Moves m m') (ho : Ordered m.opQueue) : Ordered m'.opQueue := by
  cases h with
  | append ops hq => exact hq ▸ ho.append_entries ops
  | pop _ hq he => exact (hq ▸ ho).tail he
  | task events _ hq hm =>
    subst hm
    exact Ordered.runTask (hq ▸ ho).behind_task events

end Queue

section Sound

/-- The thread counts what it has posted on its own, which it does inside of `run` only. -/
def Posted (m : Scheduler D O R σ) (inRun : Bool) : Prop :=
  m.privateOutstandingWork = m.privateOpQueue.length ∧ (inRun = false → m.privateOpQueue = [])

/-- The count of the thread was raised for the descriptor at which nothing was done. -/
def Compensated (m : Scheduler D O R σ) : Prop :=
  m.privateOutstandingWork = 1 ∧ m.privateOpQueue = [] ∧ m.outstandingWork ≠ 0

/-- The counts and the flag, for each place where the thread may stand. -/
def Settled (m : Scheduler D O R σ) : Prop :=
  match m.phase with
  | .requests inRun rest =>
    m.stopped = false ∧ (m.Posted inRun ∨ inRun = true ∧ rest = [] ∧ m.Compensated)
  | .enqueue inRun _ _ _ _ => m.stopped = false ∧ m.Posted inRun
  | .idle => m.Posted false ∧ (m.stopped = true ↔ m.outstandingWork = 0)
  | .performIo _ _ _ _ => m.Posted false ∧ m.stopped = false ∧ m.outstandingWork ≠ 0
  | .asleep => False
  | .returned => m.Posted false ∧ m.outstandingWork = 0

structure Sound (m : Scheduler D O R σ) : Prop where
  registered : m.Registered
  ordered : Ordered m.opQueue
  counted : m.work - m.phase.handling = m.operations.card
  settled : m.Settled

omit [DecidableEq D]

theorem Posted.nonneg (h : m.Posted b) : 0 ≤ m.privateOutstandingWork := by
  rw [h.1]
  exact Int.natCast_nonneg _

theorem Settled.nonneg (h : m.Settled) : 0 ≤ m.privateOutstandingWork := by
  unfold Settled at h
  split at h
  · rcases h.2 with hp | ⟨_, _, hp, _⟩
    · exact hp.nonneg
    · omega
  · exact h.2.nonneg
  · exact h.1.nonneg
  · exact h.1.nonneg
  · cases h
  · exact h.1.nonneg

theorem privateOpQueue_le_operations (m : Scheduler D O R σ) :
    m.privateOpQueue.length ≤ m.operations.card := by
  simp only [operations, stock, queued, Multiset.card_add, Multiset.coe_card, List.length_map,
    List.length_append]
  omega

theorem postImmediateCompletion_posted (h : m.Posted b) (o : O) (r : R) (c : Bool) :
    (m.postImmediateCompletion o r c b).Posted b ∧
      (m.postImmediateCompletion o r c b).stopped = m.stopped := by
  unfold postImmediateCompletion
  split
  · rename_i hc
    refine ⟨⟨?_, fun hb => by simp [hb] at hc⟩, rfl⟩
    simp [h.1]
  · exact ⟨h, rfl⟩

/-- In a handler that has requests left to make. -/
theorem Settled.posted (h : m.Settled) (hphase : m.phase = .requests b (request :: rest)) :
    m.stopped = false ∧ m.Posted b := by
  simp only [Settled, hphase, reduceCtorEq, false_and, and_false, or_false] at h
  exact h

theorem workCleanup_settled (h : m.Settled) (hphase : m.phase = .requests true [])
    (hcount : m.work - m.phase.handling = m.operations.card) :
    (m.workCleanup.enter .idle).Settled := by
  have hle := m.privateOpQueue_le_operations
  simp only [Settled, hphase, Phase.handling, if_true, work, true_and] at h hcount
  simp only [Settled, enter, workCleanup, workFinished, Posted]
  refine ⟨by simp, ?_⟩
  obtain ⟨hst, ⟨hp, _⟩ | ⟨hp, hnil, hne⟩⟩ := h
  · split
    · simp only [hst, Bool.false_eq_true, false_iff]
      omega
    · split
      · simp [hst]
      · simp only [hst, Bool.false_eq_true, false_iff]
        omega
  · simp [hp, hst, hne]

theorem Step.settled {call : Call D A R} [DecidableEq D] (hs : Step P call m m') (h : m.Settled)
    (ho : Ordered m.opQueue) (hcount : m.work - m.phase.handling = m.operations.card) :
    m'.Settled := by
  cases hs with
  | post hphase | immediate hphase =>
    obtain ⟨hst, hp⟩ := h.posted hphase
    obtain ⟨hp', hst'⟩ := postImmediateCompletion_posted hp _ _ _
    exact ⟨hst'.trans hst, .inl hp'⟩
  | immediateExhausted hphase =>
    obtain ⟨hst, hp⟩ := h.posted hphase
    obtain ⟨hp', hst'⟩ := postImmediateCompletion_posted (m := m.setSpeculative _ _ _) hp _ _ _
    exact ⟨hst'.trans hst, .inl hp'⟩
  | registerDescriptor hphase | deregisterDescriptor hphase | behind hphase =>
    obtain ⟨hst, hp⟩ := h.posted hphase
    exact ⟨hst, .inl hp⟩
  | untried hphase | tried hphase => exact h.posted hphase
  | modify hphase | enqueue hphase =>
    simp only [Settled, hphase] at h
    exact ⟨h.1, .inl h.2⟩
  | run hphase hne =>
    simp only [Settled, hphase, Bool.false_eq_true, false_and, or_false] at h
    refine ⟨h.2, ?_⟩
    simp [enter, h.1, hne]
  | noWork hphase hz =>
    simp only [Settled, hphase, Bool.false_eq_true, false_and, or_false] at h
    exact ⟨h.2, hz⟩
  | workCleanup hphase => exact workCleanup_settled h hphase hcount
  | «return» hphase hst =>
    simp only [Settled, hphase] at h
    exact ⟨h.1, h.2.mp hst⟩
  | sleep hphase hst hq => exact absurd hq ho.ne_nil
  | task hphase hst hq =>
    rw [runTask_eq]
    simp only [Settled, hphase] at h ⊢
    exact h
  | complete hphase hst hq hc =>
    simp only [Settled, hphase] at h
    exact ⟨hst, .inl ⟨h.1.1, fun hb => by cases hb⟩⟩
  | descriptor hphase hst hq =>
    simp only [Settled, hphase, hst, Bool.false_eq_true, false_iff] at h
    exact ⟨h.1, hst, h.2⟩
  | skip hphase | nothing hphase | notDone hphase | done hphase | exhausted hphase =>
    simp only [Settled, hphase] at h
    exact h
  | compensate hphase =>
    simp only [Settled, hphase] at h
    obtain ⟨⟨hp, hnil⟩, hst, hne⟩ := h
    refine ⟨hst, .inr ⟨rfl, rfl, ?_, hnil rfl, hne⟩⟩
    simp [enter, compensatingWorkStarted, hp, hnil rfl]
  | first hphase hc =>
    simp only [Settled, hphase] at h
    exact ⟨h.2.1, .inl ⟨h.1.1, fun hb => by cases hb⟩⟩

theorem Step.sound {call : Call D A R} [DecidableEq D] (hs : Step P call m m') (h : m.Sound) :
    m'.Sound where
  registered := hs.registered h.registered
  ordered := hs.moves.ordered h.ordered
  counted := by
    have hcount := h.counted
    cases hs.effect h.registered h.settled.nonneg with
    | quiet _ _ hops hwork => rw [hwork, hops, hcount]
    | starts o _ _ hops hwork => rw [hwork, hops, hcount, Multiset.card_cons, Nat.cast_succ]
    | completes o r _ _ _ _ _ hops hwork =>
      rw [hops, Multiset.card_cons, Nat.cast_succ] at hcount
      omega
  settled := hs.settled h.settled h.ordered h.counted

theorem initial_sound (s : σ) (requests : List (Request D O R)) :
    (initial s requests).Sound where
  registered := ⟨fun _ _ _ => rfl, fun _ _ _ _ _ he => by cases he⟩
  ordered := .mk [] [] (by simp) (by simp) .nil
  counted := rfl
  settled := ⟨rfl, .inl ⟨rfl, fun _ => rfl⟩⟩

theorem run_sound [DecidableEq D] {calls : List (Call D A R)}
    (h : Agents.Schedule (Step P) calls (initial s requests) m) : m.Sound :=
  h.keeps (fun _ _ _ _ hn hs => hs.sound hn) (initial_sound s requests)

end Sound

section Counts
omit [DecidableEq D]

theorem Ordered.countP_task {q : List (Entry D O R)} (h : Ordered q) :
    q.countP Entry.isTask = 1 := by
  obtain ⟨front, back, hfront, hback, _⟩ := h
  have hf : front.countP Entry.isTask = 0 := by
    rw [List.countP_eq_zero]
    intro e he
    simp [hfront e he]
  have hb : back.countP Entry.isTask = 0 := by
    rw [List.countP_eq_zero]
    intro e he
    have hdone := hback e he
    cases e with
    | task => cases hdone
    | descriptor d => simp [Entry.isTask]
    | op o r => simp [Entry.isTask]
  rw [List.countP_append, hf, List.countP_cons, hb]
  rfl

theorem Ordered.nodup_ready {q : List (Entry D O R)} (h : Ordered q) :
    (q.filterMap Entry.ready).Nodup := by
  obtain ⟨front, back, _, hback, hnodup⟩ := h
  have hb : back.filterMap Entry.ready = [] := by
    rw [List.filterMap_eq_nil_iff]
    intro e he
    have hdone := hback e he
    cases e with
    | task => cases hdone
    | descriptor d => cases hdone
    | op o r => rfl
  rw [List.filterMap_append, List.filterMap_cons_none rfl, hb, List.append_nil]
  exact hnodup

theorem Sound.work_eq (h : m.Sound) (hidle : m.phase.handling = 0)
    (hp : m.Posted false) : m.outstandingWork = m.operations.card := by
  have hcount := h.counted
  rw [hidle, work, hp.1, hp.2 rfl] at hcount
  simpa using hcount

theorem Sound.stopped_iff (h : m.Sound) (hphase : m.phase = .idle) :
    m.stopped = true ↔ m.operations = 0 := by
  have hs := h.settled
  simp only [Settled, hphase] at hs
  rw [hs.2, h.work_eq (by simp [hphase, Phase.handling]) hs.1, Nat.cast_eq_zero,
    Multiset.card_eq_zero]

theorem Sound.returned (h : m.Sound) (hphase : m.phase = .returned) : m.operations = 0 := by
  have hs := h.settled
  simp only [Settled, hphase] at hs
  have hcount := h.work_eq (by simp [hphase, Phase.handling]) hs.1
  rw [hs.2] at hcount
  exact Multiset.card_eq_zero.mp (by exact_mod_cast hcount.symm)

end Counts

/-- The books of the scheduler, in every run of every program whose handlers throw nothing. The
thread never goes to sleep on the wakeup event, from which nobody would wake it. The two counts
of work come to the number of operations that were started and are not completed, and one for
the handler that runs. The task is in the queue once, a descriptor at most once, and none is
when the task runs, as the reactor relies on. And `run` comes to its end when no operation is
left, and not before. -/
theorem work_counted {calls : List (Call D A R)}
    (h : Agents.Schedule (Step P) calls (initial s requests) m) :
    m.phase ≠ .asleep ∧
      m.outstandingWork + m.privateOutstandingWork = m.operations.card + m.phase.handling ∧
      m.opQueue.countP Entry.isTask = 1 ∧ (m.opQueue.filterMap Entry.ready).Nodup ∧
      (∀ rest, m.opQueue = .task :: rest → ∀ e ∈ rest, e.done.isSome) ∧
      (m.phase = .idle → (m.stopped = true ↔ m.operations = 0)) ∧
      (m.phase = .returned → m.operations = 0) := by
  have hm := run_sound h
  refine ⟨fun hphase => ?_, ?_, hm.ordered.countP_task, hm.ordered.nodup_ready, ?_,
    hm.stopped_iff, hm.returned⟩
  · have hs := hm.settled
    simp only [Settled, hphase] at hs
  · have hcount := hm.counted
    rw [work] at hcount
    omega
  · intro rest hq
    exact (hq ▸ hm.ordered).behind_task

theorem Step.wait {blocking : Bool} {events : List (D × Events)} (hphase : m.phase = .idle)
    (hst : m.stopped = false) (hq : m.opQueue = .task :: rest) (hb : rest.isEmpty = blocking) :
    Step P (.wait blocking events) m ({ m with opQueue := rest }.runTask events) :=
  hb ▸ .task hphase hst hq

/-- One operation that starts itself again, and is done whenever it may read. -/
def ticker : Program Nat Nat Bool Unit Nat where
  perform _ _ readable := some (if readable then .done () else .notDone)
  complete n o _ := some (n + 1, [.startOp 0 .read o true])
  aborted _ := ()

def tickerMain : Scheduler Nat Nat Unit Nat :=
  .initial 0 [.registerDescriptor 0, .startOp 0 .read 7 false]

/-- Up to where its first completion asks for the next one. -/
def tickerCalls : List (Call Nat Bool Unit) :=
  [.add 0, .perform 0 .read false .notDone, .none, .none, .wait true [(0, { input := true })],
    .none, .none, .perform 0 .read true (.done ()), .none, .none]

theorem ticker_run : ∃ m, Agents.Schedule (Step ticker) tickerCalls tickerMain m ∧
    m.state = 1 := by
  refine Agents.exists_cons (.registerDescriptor rfl (by decide)) ?_
  refine Agents.exists_cons (.tried rfl (by decide) rfl rfl rfl) ?_
  refine Agents.exists_cons (.enqueue rfl (by simp)) ?_
  refine Agents.exists_cons (.run rfl (by decide)) ?_
  refine Agents.exists_cons (.wait rfl rfl rfl rfl) ?_
  refine Agents.exists_cons (.descriptor rfl rfl rfl) ?_
  refine Agents.exists_cons (.skip rfl rfl) ?_
  refine Agents.exists_cons (.done rfl rfl rfl rfl) ?_
  refine Agents.exists_cons (.nothing rfl rfl rfl) ?_
  refine Agents.exists_cons (.first rfl rfl) ?_
  exact ⟨_, .nil, rfl⟩

theorem work_counted_sample : ∃ m : Scheduler Nat Nat Unit Nat, m.state = 1 ∧
    m.phase ≠ .asleep ∧
    m.outstandingWork + m.privateOutstandingWork = m.operations.card + m.phase.handling := by
  obtain ⟨m, h, hstate⟩ := ticker_run
  exact ⟨m, hstate, (work_counted h).1, (work_counted h).2.1⟩

omit [DecidableEq D] in
theorem mem_operations (h : (o, r) ∈ m.queued ++ m.phase.held) : o ∈ m.operations := by
  have hmap : o ∈ (m.queued ++ m.phase.held).map Prod.fst := List.mem_map_of_mem h
  rw [List.map_append, List.mem_append] at hmap
  rcases hmap with hmap | hmap
  · exact Multiset.mem_add.mpr (.inr (Multiset.mem_add.mpr (.inl hmap)))
  · exact Multiset.mem_add.mpr (.inl hmap)

omit [DecidableEq D] in
theorem mem_pending (h : (o, r) ∈ m.queued ++ m.phase.held) : o ∈ m.pending :=
  Multiset.mem_add.mpr (.inr (mem_operations h))

section Sockets

/-- The descriptors that are registered when the requests have been made. -/
def registeredAfter (ds : Multiset D) : List (Request D O R) → Multiset D
  | [] => ds
  | .registerDescriptor d :: rest => registeredAfter (d ::ₘ ds) rest
  | .deregisterDescriptor d :: rest => registeredAfter (ds.erase d) rest
  | .post _ _ _ :: rest => registeredAfter ds rest
  | .startOp _ _ _ _ :: rest => registeredAfter ds rest

/-- The descriptors that the running code will leave behind. -/
def registry (m : Scheduler D O R σ) : Multiset D :=
  registeredAfter m.registeredDescriptors.val m.phase.requestsLeft

/-- What leaves the registered descriptors alone, and takes at most a request to start. -/
theorem registry_enter {n : Scheduler D O R σ} {phase : Phase D O R}
    (hr : n.registeredDescriptors = m.registeredDescriptors)
    (hphase : registeredAfter m.registeredDescriptors.val phase.requestsLeft =
      registeredAfter m.registeredDescriptors.val m.phase.requestsLeft) :
    (n.enter phase).registry = m.registry := by
  rw [registry, enter, hr, hphase, registry]

/-- A step leaves the registry and the state alone, or is the completion of an operation, from
where the registry is up to its requests. -/
theorem Step.registry {call : Call D A R} (hs : Step P call m m') :
    (m'.state = m.state ∧ m'.registry = m.registry) ∨
      ∃ o r requests, P.complete m.state o r = some (m'.state, requests) ∧
        (o, r) ∈ m.queued ++ m.phase.held ∧ m.registry = m.registeredDescriptors.val ∧
        m'.registry = registeredAfter m.registeredDescriptors.val requests := by
  cases hs with
  | post hphase | immediate hphase =>
    refine .inl ⟨postImmediateCompletion_state _ _ _ _ _, registry_enter ?_ ?_⟩
    · exact (postImmediateCompletion_descriptors _ _ _ _ _).2
    · simp [hphase, Phase.requestsLeft, registeredAfter]
  | immediateExhausted hphase =>
    refine .inl ⟨postImmediateCompletion_state _ _ _ _ _, registry_enter ?_ ?_⟩
    · exact (postImmediateCompletion_descriptors (m.setSpeculative _ _ _) _ _ _ _).2
    · simp [hphase, Phase.requestsLeft, registeredAfter]
  | registerDescriptor hphase hd =>
    refine .inl ⟨rfl, ?_⟩
    rw [Scheduler.registry, Scheduler.registry, hphase]
    exact congrArg (registeredAfter · _) (Finset.insert_val_of_notMem hd)
  | deregisterDescriptor hphase hd =>
    refine .inl ⟨rfl, ?_⟩
    rw [Scheduler.registry, Scheduler.registry, hphase]
    exact congrArg (registeredAfter · _) (Finset.erase_val _ _)
  | behind hphase | untried hphase | tried hphase | modify hphase | enqueue hphase | run hphase
  | noWork hphase | «return» hphase | sleep hphase | descriptor hphase | skip hphase
  | nothing hphase | notDone hphase | done hphase | exhausted hphase | compensate hphase =>
    refine .inl ⟨rfl, registry_enter rfl ?_⟩
    simp [hphase, Phase.requestsLeft, registeredAfter]
  | workCleanup hphase =>
    refine .inl ⟨workCleanup_state m, registry_enter (workCleanup_descriptors m).2 ?_⟩
    simp [hphase, Phase.requestsLeft]
  | task hphase =>
    rw [runTask_eq]
    exact .inl ⟨rfl, rfl⟩
  | complete hphase hst hq hc =>
    refine .inr ⟨_, _, _, hc, ?_, ?_, rfl⟩
    · simp [queued, hq, Entry.done]
    · simp [Scheduler.registry, hphase, Phase.requestsLeft, registeredAfter]
  | first hphase hc =>
    refine .inr ⟨_, _, _, hc, ?_, ?_, rfl⟩
    · simp [hphase, Phase.held]
    · simp [Scheduler.registry, hphase, Phase.requestsLeft, registeredAfter]

end Sockets

/-- What a program may rely on: a bag of operations, any of which may be the next one to
complete, with a result that the reactor has got for it. -/
structure Proactor (O σ : Type) where
  pending : Multiset O
  state : σ

inductive Proactor.Step (P : Program D O A R σ) : O × R → Proactor O σ → Proactor O σ → Prop
  | complete : p.pending = o ::ₘ rest → P.complete p.state o r = some (s, requests) →
      Step P (o, r) p ⟨wantedBy requests + rest, s⟩

/-- The scheduler with its queues, counts and descriptors is such a bag: no operation is lost
and none completes twice. -/
theorem refines (P : Program D O A R σ) :
    Agents.Refines (Step P) (Proactor.Step P) fun m p => m.Sound ∧ p = ⟨m.pending, m.state⟩ := by
  intro call m m' p hp hs
  obtain ⟨hm, rfl⟩ := hp
  cases hs.effect hm.registered hm.settled.nonneg with
  | quiet hstate hwanted hops _ =>
    exact ⟨[], _, .nil, hs.sound hm, by rw [pending, pending, hwanted, hops, hstate]⟩
  | starts o hstate hwanted hops _ =>
    refine ⟨[], _, .nil, hs.sound hm, ?_⟩
    rw [pending, pending, hwanted, hops, hstate, Multiset.cons_add, Multiset.add_cons]
  | completes o r requests hc hwanted hphase _ hops _ =>
    have hpending : m.pending = o ::ₘ m'.operations := by rw [pending, hwanted, hops, zero_add]
    refine ⟨[(o, r)], _, .single (.complete hpending hc), hs.sound hm, ?_⟩
    rw [pending, hphase]
    rfl

end Scheduler
end Horcrux.Asio
