import Horcrux.Epoll
import Horcrux.Proofs.Scheduler

namespace Horcrux.Asio
variable {D O A R σ : Type} [DecidableEq D]

namespace Kernel
variable {k k' : Kernel D}

@[simp] theorem setReady_ready (k : Kernel D) (d : D) (j : OpType) (b : Bool) (d' : D)
    (j' : OpType) :
    (k.setReady d j b).ready d' j' = if d' = d ∧ j' = j then b else k.ready d' j' := by
  by_cases hd : d' = d
  · subst hd
    by_cases hj : j' = j <;> simp [setReady, hj]
  · simp [setReady, hd]

@[simp] theorem setStale_stale (k : Kernel D) (d : D) (j : OpType) (b : Bool) (d' : D)
    (j' : OpType) :
    (k.setStale d j b).stale d' j' = if d' = d ∧ j' = j then b else k.stale d' j' := by
  by_cases hd : d' = d
  · subst hd
    by_cases hj : j' = j <;> simp [setStale, hj]
  · simp [setStale, hd]

theorem mem_notify (k : Kernel D) (d d' : D) :
    d' ∈ (k.notify d).readyList ↔ d' = d ∨ d' ∈ k.readyList := by
  unfold notify
  split
  · rename_i h
    exact ⟨.inr, fun h' => h'.elim (fun he => he ▸ h) id⟩
  · simp [or_comm]

@[simp] theorem notify_ready (k : Kernel D) (d : D) : (k.notify d).ready = k.ready := by
  unfold notify
  split <;> rfl

@[simp] theorem notify_interest (k : Kernel D) (d : D) : (k.notify d).interest = k.interest := by
  unfold notify
  split <;> rfl

@[simp] theorem notify_stale (k : Kernel D) (d : D) : (k.notify d).stale = k.stale := by
  unfold notify
  split <;> rfl

@[simp] theorem notifyIfReady_ready (k : Kernel D) (d : D) :
    (k.notifyIfReady d).ready = k.ready := by
  unfold notifyIfReady
  split <;> simp

@[simp] theorem notifyIfReady_interest (k : Kernel D) (d : D) :
    (k.notifyIfReady d).interest = k.interest := by
  unfold notifyIfReady
  split <;> simp

@[simp] theorem notifyIfReady_stale (k : Kernel D) (d : D) :
    (k.notifyIfReady d).stale = k.stale := by
  unfold notifyIfReady
  split <;> simp

theorem mem_notifyIfReady {k : Kernel D} (d : D) (h : d' ∈ k.readyList) :
    d' ∈ (k.notifyIfReady d).readyList := by
  unfold notifyIfReady
  split
  · exact (mem_notify _ _ _).mpr (.inr h)
  · exact h

theorem notifyIfReady_self {k : Kernel D} (hi : k.interest d j = true) (hr : k.ready d j = true) :
    d ∈ (k.notifyIfReady d).readyList := by
  have hevent : k.hasEvent d = true := by cases j <;> simp [hasEvent, hi, hr]
  rw [notifyIfReady, if_pos hevent]
  exact (mem_notify _ _ _).mpr (.inl rfl)

@[simp] theorem arrive_ready (k : Kernel D) (d : D) (j : OpType) (d' : D) (j' : OpType) :
    (k.arrive d j).ready d' j' = if d' = d ∧ j' = j then true else k.ready d' j' := by
  unfold arrive
  dsimp only
  split <;> simp

@[simp] theorem arrive_interest (k : Kernel D) (d : D) (j : OpType) :
    (k.arrive d j).interest = k.interest := by
  unfold arrive
  dsimp only
  split <;> simp [setReady]

@[simp] theorem arrive_stale (k : Kernel D) (d : D) (j : OpType) :
    (k.arrive d j).stale = k.stale := by
  unfold arrive
  dsimp only
  split <;> simp [setReady]

theorem mem_arrive {k : Kernel D} (d : D) (j : OpType) (h : d' ∈ k.readyList) :
    d' ∈ (k.arrive d j).readyList := by
  unfold arrive
  dsimp only
  split
  · exact (mem_notify _ _ _).mpr (.inr h)
  · exact h

/-- What comes is reported, if it was asked for. -/
theorem arrive_self {k : Kernel D} (h : k.interest d j = true) :
    d ∈ (k.arrive d j).readyList := by
  unfold arrive
  dsimp only
  rw [if_pos (by exact h)]
  exact (mem_notify _ _ _).mpr (.inl rfl)

/-- The kernel will report an event of the descriptor that the call is waited for with. -/
def Listed (k : Kernel D) (d : D) (j : OpType) : Prop := d ∈ k.readyList ∧ k.interest d j = true

/-- What a try changes in the kernel is at its own place, and there a call that is not done, or
done and exhausted, blocks the next time or is stale. -/
theorem Serves.perform {lasting : A → Prop} (h : Serves lasting (.perform d j a attempt) k k') :
    k'.interest = k.interest ∧ k'.readyList = k.readyList ∧
      (∀ d' j', ¬(d' = d ∧ j' = j) →
        k'.ready d' j' = k.ready d' j' ∧ k'.stale d' j' = k.stale d' j') ∧
      ((∀ r : R, attempt ≠ .done r) → k'.ready d j = true → k'.stale d j = true) := by
  cases h with
  | notDone hlasting | exhausted hready hlasting =>
    refine ⟨rfl, rfl, fun d' j' hne => ?_, fun _ hready => ?_⟩
    · simp only [setStale_stale, if_neg hne]
      exact ⟨(setReady_ready _ _ _ _ d' j').trans (if_neg hne), rfl⟩
    · have hagain := (setReady_ready k d j _ d j).symm.trans hready
      simpa using hagain
  | done hready =>
    refine ⟨rfl, rfl, fun d' j' hne => ⟨?_, rfl⟩, fun hnot => absurd rfl (hnot _)⟩
    rw [setReady_ready, if_neg hne]

end Kernel

namespace Scheduler
variable {P : Program D O A R σ} {m m' : Scheduler D O R σ}

section Fields

theorem setSpeculative_trySpeculative (m : Scheduler D O R σ) (d : D) (j : OpType) (b : Bool)
    (d' : D) (j' : OpType) :
    ((m.setSpeculative d j b).descriptors d').trySpeculative j' =
      if d' = d ∧ j' = j then b else (m.descriptors d').trySpeculative j' := by
  by_cases hd : d' = d
  · subst hd
    by_cases hj : j' = j <;> simp [setSpeculative, hj]
  · simp [setSpeculative, modifyDescriptor_of_ne hd, hd]

theorem setOps_opQueue_apply (m : Scheduler D O R σ) (d : D) (j : OpType) (ops : List O)
    (d' : D) (j' : OpType) :
    ((m.setOps d j ops).descriptors d').opQueue j' =
      if d' = d ∧ j' = j then ops else (m.descriptors d').opQueue j' := by
  by_cases hd : d' = d
  · subst hd
    by_cases hj : j' = j <;> simp [setOps, hj]
  · simp [setOps, modifyDescriptor_of_ne hd, hd]

theorem setSpeculative_keeps (g : DescriptorState O → α)
    (hg : ∀ ds f, g { ds with trySpeculative := f } = g ds) (m : Scheduler D O R σ) (d : D)
    (j : OpType) (b : Bool) (d' : D) :
    g ((m.setSpeculative d j b).descriptors d') = g (m.descriptors d') :=
  modifyDescriptor_keeps g (fun ds => hg ds _) d'

theorem setOps_keeps (g : DescriptorState O → α) (hg : ∀ ds f, g { ds with opQueue := f } = g ds)
    (m : Scheduler D O R σ) (d : D) (j : OpType) (ops : List O) (d' : D) :
    g ((m.setOps d j ops).descriptors d') = g (m.descriptors d') :=
  modifyDescriptor_keeps g (fun ds => hg ds _) d'

@[simp] theorem setSpeculative_opQueue (m : Scheduler D O R σ) (d : D) (j : OpType) (b : Bool)
    (d' : D) : ((m.setSpeculative d j b).descriptors d').opQueue = (m.descriptors d').opQueue :=
  setSpeculative_keeps (·.opQueue) (fun _ _ => rfl) m d j b d'

@[simp] theorem setSpeculative_registeredOut (m : Scheduler D O R σ) (d : D) (j : OpType)
    (b : Bool) (d' : D) :
    ((m.setSpeculative d j b).descriptors d').registeredOut = (m.descriptors d').registeredOut :=
  setSpeculative_keeps (·.registeredOut) (fun _ _ => rfl) m d j b d'

@[simp] theorem setSpeculative_taskResult (m : Scheduler D O R σ) (d : D) (j : OpType) (b : Bool)
    (d' : D) :
    ((m.setSpeculative d j b).descriptors d').taskResult = (m.descriptors d').taskResult :=
  setSpeculative_keeps (·.taskResult) (fun _ _ => rfl) m d j b d'

@[simp] theorem setOps_trySpeculative (m : Scheduler D O R σ) (d : D) (j : OpType) (ops : List O)
    (d' : D) :
    ((m.setOps d j ops).descriptors d').trySpeculative = (m.descriptors d').trySpeculative :=
  setOps_keeps (·.trySpeculative) (fun _ _ => rfl) m d j ops d'

@[simp] theorem setOps_registeredOut (m : Scheduler D O R σ) (d : D) (j : OpType) (ops : List O)
    (d' : D) :
    ((m.setOps d j ops).descriptors d').registeredOut = (m.descriptors d').registeredOut :=
  setOps_keeps (·.registeredOut) (fun _ _ => rfl) m d j ops d'

@[simp] theorem setOps_taskResult (m : Scheduler D O R σ) (d : D) (j : OpType) (ops : List O)
    (d' : D) : ((m.setOps d j ops).descriptors d').taskResult = (m.descriptors d').taskResult :=
  setOps_keeps (·.taskResult) (fun _ _ => rfl) m d j ops d'

/-- No operation has left or come. -/
theorem setOps_self (m : Scheduler D O R σ) (d : D) (j : OpType) :
    m.setOps d j ((m.descriptors d).opQueue j) = m := by
  simp [setOps, modifyDescriptor]

theorem waitForEvents_descriptors (m : Scheduler D O R σ) (d : D) (j : OpType) (o : O) :
    (m.waitForEvents d j o).descriptors =
      (m.setOps d j ((m.descriptors d).opQueue j ++ [o])).descriptors := rfl

end Fields

/-- Events of the kind are on their way through the scheduler to the descriptor. -/
def Notified (m : Scheduler D O R σ) (d : D) (j : OpType) : Prop :=
  (.descriptor d ∈ m.opQueue ∧ (m.descriptors d).taskResult.concern j = true) ∨
    ∃ events types ops, m.phase = .performIo d events types ops ∧
      events.concern j = true ∧ j ∈ types

/-- An operation of the kind waits at the descriptor, or would be put there untried. -/
def Relies (m : Scheduler D O R σ) (d : D) (j : OpType) : Prop :=
  (m.descriptors d).opQueue j ≠ [] ∨ (m.descriptors d).trySpeculative j = false ∨
    ∃ b o rest, m.phase = .enqueue b d j o rest

end Scheduler

open Scheduler

/-- Where the scheduler relies on an event it gets one: if the call would not block, then the
kernel has the event on its list, or it is on its way, or the call is stale, or the event is
still to be asked for. -/
structure Wakeful (m : Scheduler D O R σ) (k : Kernel D) : Prop where
  interest : ∀ d ∈ m.registeredDescriptors,
    k.interest d .read = true ∧ k.interest d .write = (m.descriptors d).registeredOut
  asked : ∀ d ∈ m.registeredDescriptors, (m.descriptors d).opQueue .write ≠ [] →
    (m.descriptors d).registeredOut = true
  alert : ∀ d ∈ m.registeredDescriptors, ∀ j, m.Relies d j → k.ready d j = true →
    k.Listed d j ∨ m.Notified d j ∨ k.stale d j = true ∨
      j = .write ∧ (m.descriptors d).registeredOut = false

section Steps
variable {P : Program D O A R σ} {m m' : Scheduler D O R σ} {k k' : Kernel D}

/-- The claim of `Wakeful.alert` at one place. -/
def Alert (m : Scheduler D O R σ) (k : Kernel D) (d : D) (j : OpType) : Prop :=
  k.Listed d j ∨ m.Notified d j ∨ k.stale d j = true ∨
    j = .write ∧ (m.descriptors d).registeredOut = false

omit [DecidableEq D] in
/-- Where it was alert before it stays so, if it relies on events now no more than then. -/
theorem Wakeful.of (h : Wakeful m k)
    (hreg : m'.registeredDescriptors = m.registeredDescriptors)
    (hout : ∀ d, (m'.descriptors d).registeredOut = (m.descriptors d).registeredOut)
    (hwrites : ∀ d ∈ m.registeredDescriptors, (m'.descriptors d).opQueue .write ≠ [] →
      (m.descriptors d).opQueue .write ≠ [] ∨ (m.descriptors d).registeredOut = true)
    (hinterest : k'.interest = k.interest)
    (halert : ∀ d ∈ m.registeredDescriptors, ∀ j, m'.Relies d j → k'.ready d j = true →
      Alert m' k' d j ∨ (m.Relies d j ∧ k.ready d j = true ∧
        (k.Listed d j → k'.Listed d j ∨ m'.Notified d j) ∧
        (m.Notified d j → m'.Notified d j) ∧ (k.stale d j = true → k'.stale d j = true))) :
    Wakeful m' k' where
  interest d hd := by
    rw [hinterest, hout]
    exact h.interest d (hreg ▸ hd)
  asked d hd hq := by
    rw [hout]
    exact (hwrites d (hreg ▸ hd) hq).elim (h.asked d (hreg ▸ hd)) id
  alert d hd j hr hready := by
    rcases halert d (hreg ▸ hd) j hr hready with hnew | ⟨hr', hready', hlist, hnot, hstale⟩
    · exact hnew
    · rcases h.alert d (hreg ▸ hd) j hr' hready' with hl | hn | hs | ⟨hj, ho⟩
      · rcases hlist hl with hl | hn
        · exact .inl hl
        · exact .inr (.inl hn)
      · exact .inr (.inl (hnot hn))
      · exact .inr (.inr (.inl (hstale hs)))
      · exact .inr (.inr (.inr ⟨hj, by rw [hout, ho]⟩))

omit [DecidableEq D] in
/-- The kernel is not involved. -/
theorem Wakeful.still (h : Wakeful m k)
    (hreg : m'.registeredDescriptors = m.registeredDescriptors)
    (hout : ∀ d, (m'.descriptors d).registeredOut = (m.descriptors d).registeredOut)
    (hwrites : ∀ d ∈ m.registeredDescriptors, (m'.descriptors d).opQueue .write ≠ [] →
      (m.descriptors d).opQueue .write ≠ [] ∨ (m.descriptors d).registeredOut = true)
    (hrelies : ∀ d ∈ m.registeredDescriptors, ∀ j, m'.Relies d j →
      m.Relies d j ∧ (m.Notified d j → m'.Notified d j)) : Wakeful m' k :=
  h.of hreg hout hwrites rfl fun d hd j hr hready =>
    .inr ⟨(hrelies d hd j hr).1, hready, .inl, (hrelies d hd j hr).2, id⟩

omit [DecidableEq D] in
/-- The descriptors are as they were, and so are those in the queue. -/
theorem Wakeful.same (h : Wakeful m k)
    (hreg : m'.registeredDescriptors = m.registeredDescriptors)
    (hdescriptors : m'.descriptors = m.descriptors)
    (hq : ∀ d, .descriptor d ∈ m.opQueue → .descriptor d ∈ m'.opQueue)
    (hphase : ∀ b d j o rest, m'.phase = .enqueue b d j o rest →
      (m.descriptors d).trySpeculative j = false)
    (hio : ∀ d events types ops, m.phase = .performIo d events types ops → types = []) :
    Wakeful m' k := by
  refine h.still hreg (fun d => by rw [hdescriptors]) (fun d _ hw => .inl (hdescriptors ▸ hw))
    fun d _ j hr => ⟨?_, ?_⟩
  · rcases hr with hw | ht | ⟨b, o, rest, he⟩
    · exact .inl (hdescriptors ▸ hw)
    · exact .inr (.inl (hdescriptors ▸ ht))
    · exact .inr (.inl (hphase _ _ _ _ _ he))
  · rintro (⟨hm, hc⟩ | ⟨events, types, ops, he, _, hj⟩)
    · exact .inl ⟨hq d hm, hdescriptors ▸ hc⟩
    · rw [hio _ _ _ _ he] at hj
      cases hj

/-- The events that are dispatched reach their descriptors. -/
theorem dispatch_mem (events : List (D × Events)) (m : Scheduler D O R σ) (ops : List D) {d : D}
    {j : OpType} (h : d ∈ ops ∧ (m.descriptors d).taskResult.concern j = true ∨
      ∃ e, (d, e) ∈ events ∧ e.concern j = true) :
    d ∈ (m.dispatch ops events).2 ∧
      ((m.dispatch ops events).1.descriptors d).taskResult.concern j = true := by
  have hor : ∀ e f : Events, (e.or f).concern j = (e.concern j || f.concern j) := by
    intro e f
    cases j <;> simp only [Events.or, Events.concern] <;> ac_rfl
  induction events generalizing m ops with
  | nil =>
    rcases h with h | ⟨e, he, _⟩
    · exact h
    · cases he
  | cons x rest ih =>
    obtain ⟨d', f⟩ := x
    simp only [dispatch]
    split
    · rename_i hd'
      apply ih
      rcases h with ⟨hd, hc⟩ | ⟨e, he, hc⟩
      · have hne : d ≠ d' := fun heq => hd' (heq ▸ hd)
        exact .inl ⟨List.mem_append_left _ hd, by rwa [modifyDescriptor_of_ne hne]⟩
      · rcases List.mem_cons.mp he with heq | he
        · obtain ⟨rfl, rfl⟩ := Prod.mk.inj heq
          exact .inl ⟨by simp, by simpa using hc⟩
        · exact .inr ⟨e, he, hc⟩
    · rename_i hd'
      rw [not_not] at hd'
      apply ih
      rcases h with ⟨hd, hc⟩ | ⟨e, he, hc⟩
      · refine .inl ⟨hd, ?_⟩
        by_cases hne : d = d'
        · subst hne
          simp [hor, hc]
        · rwa [modifyDescriptor_of_ne hne]
      · rcases List.mem_cons.mp he with heq | he
        · obtain ⟨rfl, rfl⟩ := Prod.mk.inj heq
          exact .inl ⟨hd', by simp [hor, hc]⟩
        · exact .inr ⟨e, he, hc⟩

omit [DecidableEq D] in
/-- The list of the kernel has grown, and nothing else has happened. -/
theorem Wakeful.grown (h : Wakeful m k) (hinterest : k'.interest = k.interest)
    (hready : k'.ready = k.ready) (hstale : k'.stale = k.stale)
    (hlist : ∀ d ∈ k.readyList, d ∈ k'.readyList) : Wakeful m k' :=
  h.of rfl (fun _ => rfl) (fun _ _ => .inl) hinterest fun d _ j hr hd =>
    .inr ⟨hr, by rwa [← hready], fun hl => .inl ⟨hlist d hl.1, by rw [hinterest, hl.2]⟩, id,
      fun hs => by rw [hstale, hs]⟩

theorem Wakeful.happens (h : Wakeful m k) (hk : Kernel.Happens k k') : Wakeful m k' := by
  cases hk with
  | arrive =>
    rename_i d j
    refine h.of rfl (fun _ => rfl) (fun _ _ => .inl) (Kernel.arrive_interest k d j)
      fun d' hd' j' hr hready => ?_
    rw [Kernel.arrive_ready] at hready
    by_cases he : d' = d ∧ j' = j
    · obtain ⟨rfl, rfl⟩ := he
      left
      obtain ⟨hread, hwrite⟩ := h.interest d' hd'
      cases hi : k.interest d' j' with
      | true => exact .inl ⟨Kernel.arrive_self hi, by rw [Kernel.arrive_interest, hi]⟩
      | false =>
        cases j' with
        | read => rw [hread] at hi; cases hi
        | write => exact .inr (.inr (.inr ⟨rfl, hwrite.symm.trans hi⟩))
    · rw [if_neg he] at hready
      exact .inr ⟨hr, hready,
        fun hl => .inl ⟨Kernel.mem_arrive d j hl.1, by rw [Kernel.arrive_interest, hl.2]⟩, id,
        fun hs => by rw [Kernel.arrive_stale, hs]⟩
  | spurious =>
    exact h.grown (Kernel.notify_interest _ _) (Kernel.notify_ready _ _) (Kernel.notify_stale _ _)
      fun d hd => (Kernel.mem_notify _ _ _).mpr (.inr hd)

omit [DecidableEq D] in
/-- Outside of `start_op` the scheduler relies on what the descriptor says. -/
theorem Scheduler.Relies.of_descriptor (h : m'.Relies d j)
    (hphase : ∀ b o rest, m'.phase ≠ .enqueue b d j o rest) :
    (m'.descriptors d).opQueue j ≠ [] ∨ (m'.descriptors d).trySpeculative j = false := by
  rcases h with hq | ht | ⟨b, o, rest, he⟩
  · exact .inl hq
  · exact .inr ht
  · exact absurd he (hphase b o rest)

/-- A try at one place, of which the kernel keeps the outcome. -/
theorem Wakeful.tried {lasting : A → Prop} {attempt : Attempt R} (h : Wakeful m k)
    (hk : Kernel.Serves lasting (.perform d j a attempt) k k')
    (hreg : m'.registeredDescriptors = m.registeredDescriptors)
    (hout : ∀ d, (m'.descriptors d).registeredOut = (m.descriptors d).registeredOut)
    (hwrites : ∀ d, (m'.descriptors d).opQueue .write ≠ [] → (m.descriptors d).opQueue .write ≠ [])
    (hdone : ∀ r, attempt = .done r → m'.Relies d j → m'.Notified d j)
    (hloop : ∀ d' j', ¬(d' = d ∧ j' = j) →
      (m'.Relies d' j' → m.Relies d' j') ∧ (m.Notified d' j' → m'.Notified d' j')) :
    Wakeful m' k' := by
  obtain ⟨hinterest, hlist, helsewhere, hstale⟩ := hk.perform
  refine h.of hreg hout (fun d' _ hw => .inl (hwrites d' hw)) hinterest
    fun d' hd' j' hr hready => ?_
  by_cases he : d' = d ∧ j' = j
  · obtain ⟨rfl, rfl⟩ := he
    left
    by_cases hr' : ∃ r, attempt = .done r
    · obtain ⟨r, hr'⟩ := hr'
      exact .inr (.inl (hdone r hr' hr))
    · exact .inr (.inr (.inl (hstale (fun r heq => hr' ⟨r, heq⟩) hready)))
  · obtain ⟨hrelies, hnot⟩ := hloop d' j' he
    obtain ⟨hsame, hold⟩ := helsewhere d' j' he
    exact .inr ⟨hrelies hr, by rwa [← hsame], fun hl => .inl ⟨hlist ▸ hl.1, hinterest ▸ hl.2⟩, hnot,
      fun hs => hold.trans hs⟩

omit [DecidableEq D] in
/-- What `perform_io` does with one type of operations the other ones do not notice. -/
theorem performIo_loop (hphase : m.phase = .performIo d events (j :: types) ops)
    (hphase' : m'.phase = .performIo d events types' ops') (htypes : ∀ i ∈ types, i ∈ types')
    (hopQueue : m'.opQueue = m.opQueue)
    (hq : (m'.descriptors d').opQueue j' = (m.descriptors d').opQueue j')
    (hspec : (m'.descriptors d').trySpeculative j' = (m.descriptors d').trySpeculative j')
    (hresult : (m'.descriptors d').taskResult = (m.descriptors d').taskResult)
    (hne : ¬(d' = d ∧ j' = j)) :
    (m'.Relies d' j' → m.Relies d' j') ∧ (m.Notified d' j' → m'.Notified d' j') := by
  refine ⟨fun hr => ?_, ?_⟩
  · have hdesc := hr.of_descriptor (by simp [hphase'])
    rw [hq, hspec] at hdesc
    exact hdesc.imp_right .inl
  · rintro (⟨hm, hc⟩ | ⟨_, _, _, hio, hc, hj⟩)
    · exact .inl ⟨hopQueue ▸ hm, by rwa [hresult]⟩
    · rw [hphase] at hio
      obtain ⟨rfl, rfl, rfl, rfl⟩ := Phase.performIo.inj hio
      rcases List.mem_cons.mp hj with rfl | hj
      · exact absurd ⟨rfl, rfl⟩ hne
      · exact .inr ⟨_, _, _, hphase', hc, htypes _ hj⟩

omit [DecidableEq D] in
/-- What the scheduler relies on, and what is on its way, between a handler and a handler. -/
theorem Wakeful.requests (h : Wakeful m k) (hphase : m.phase = .requests b rest)
    (hphase' : m'.phase = .requests b' rest')
    (hreg : m'.registeredDescriptors = m.registeredDescriptors)
    (hdescriptors : m'.descriptors = m.descriptors)
    (hq : ∃ ops, m'.opQueue = m.opQueue ++ entries ops) : Wakeful m' k := by
  obtain ⟨ops, hq⟩ := hq
  refine h.same hreg hdescriptors (fun d hd => ?_) (by simp [hphase']) (by simp [hphase])
  rw [hq]
  exact List.mem_append_left _ hd

theorem Wakeful.waitForEvents (h : Wakeful m k)
    (hphase : ∀ d events types ops, m.phase ≠ .performIo d events types ops) (hrel : m.Relies d j)
    (hwrite : j = .write →
      (m.descriptors d).opQueue .write ≠ [] ∨ (m.descriptors d).registeredOut = true) (o : O) :
    Wakeful ((m.waitForEvents d j o).enter (.requests b rest)) k := by
  refine h.still rfl (fun d' => ?_) (fun d' _ hw => ?_) fun d' _ j' hr => ⟨?_, ?_⟩
  · simp [waitForEvents_descriptors]
  · rw [enter_descriptors, waitForEvents_descriptors, setOps_opQueue_apply] at hw
    split at hw
    · rename_i he
      obtain ⟨rfl, hj⟩ := he
      exact hwrite hj.symm
    · exact .inl hw
  · by_cases he : d' = d ∧ j' = j
    · rwa [he.1, he.2]
    · have hdesc := hr.of_descriptor (by simp)
      rw [enter_descriptors, waitForEvents_descriptors, setOps_opQueue_apply, if_neg he,
        setOps_trySpeculative] at hdesc
      exact hdesc.imp_right .inl
  · rintro (⟨hm, hc⟩ | ⟨events, types, ops, hio, _⟩)
    · refine .inl ⟨hm, ?_⟩
      rwa [enter_descriptors, waitForEvents_descriptors, setOps_taskResult]
    · exact absurd hio (hphase _ _ _ _)

omit [DecidableEq D] in
/-- A change at one descriptor, which the others do not notice. -/
theorem Wakeful.elsewhere (h : Wakeful m k) (d : D)
    (hreg : ∀ d' ∈ m'.registeredDescriptors, d' ≠ d → d' ∈ m.registeredDescriptors)
    (hother : ∀ d', d' ≠ d → m'.descriptors d' = m.descriptors d')
    (hloop : ∀ d', d' ≠ d → ∀ j,
      (m'.Relies d' j → m.Relies d' j) ∧ (m.Notified d' j → m'.Notified d' j))
    (hinterest : ∀ d', d' ≠ d → k'.interest d' = k.interest d')
    (hready : ∀ d', d' ≠ d → k'.ready d' = k.ready d')
    (hstale : ∀ d', d' ≠ d → k'.stale d' = k.stale d')
    (hlist : ∀ d', d' ≠ d → d' ∈ k.readyList → d' ∈ k'.readyList)
    (hat : d ∈ m'.registeredDescriptors →
      (k'.interest d .read = true ∧ k'.interest d .write = (m'.descriptors d).registeredOut) ∧
        ((m'.descriptors d).opQueue .write ≠ [] → (m'.descriptors d).registeredOut = true) ∧
        ∀ j, m'.Relies d j → k'.ready d j = true → Alert m' k' d j) : Wakeful m' k' := by
  refine ⟨fun d' hd' => ?_, fun d' hd' hw => ?_, fun d' hd' j hr hrdy => ?_⟩
  · by_cases hne : d' = d
    · subst hne
      exact (hat hd').1
    · rw [hinterest _ hne, hother _ hne]
      exact h.interest d' (hreg d' hd' hne)
  · by_cases hne : d' = d
    · subst hne
      exact (hat hd').2.1 hw
    · rw [hother _ hne] at hw ⊢
      exact h.asked d' (hreg d' hd' hne) hw
  · by_cases hne : d' = d
    · subst hne
      exact (hat hd').2.2 j hr hrdy
    · obtain ⟨hrelies, hnot⟩ := hloop d' hne j
      rw [hready _ hne] at hrdy
      rcases h.alert d' (hreg d' hd' hne) j (hrelies hr) hrdy with ⟨hl, hi⟩ | hn | hs | ⟨hj, ho⟩
      · exact .inl ⟨hlist d' hne hl, by rw [hinterest _ hne, hi]⟩
      · exact .inr (.inl (hnot hn))
      · exact .inr (.inr (.inl (by rw [hstale _ hne, hs])))
      · exact .inr (.inr (.inr ⟨hj, by rw [hother _ hne, ho]⟩))

/-- The scheduler after `EPOLL_CTL_MOD`. -/
theorem Wakeful.ask (h : Wakeful m k) (d : D) :
    Wakeful (m.modifyDescriptor d fun ds => { ds with registeredOut := true }) (k.modify d) := by
  have hother : ∀ d', d' ≠ d → (m.modifyDescriptor d fun ds =>
      { ds with registeredOut := true }).descriptors d' = m.descriptors d' := fun d' hne =>
    modifyDescriptor_of_ne hne _
  refine h.elsewhere d (fun d' hd' _ => hd') hother (fun d' hne j => ⟨?_, ?_⟩)
    (fun d' hne => ?_) (fun d' hne => ?_) (fun d' hne => ?_)
    (fun d' _ hl => Kernel.mem_notifyIfReady d hl)
    fun _ => ⟨?_, fun _ => ?_, fun j hr hrdy => .inl ?_⟩
  · simp only [Relies, hother d' hne]
    exact id
  · simp only [Notified, hother d' hne]
    exact id
  · simp [Kernel.modify, Function.update_of_ne hne]
  · simp [Kernel.modify]
  · simp [Kernel.modify]
  · simp [Kernel.modify]
  · simp
  · refine ⟨Kernel.notifyIfReady_self (j := j) (by simp) ?_, by simp [Kernel.modify]⟩
    simpa [Kernel.modify] using hrdy

omit [DecidableEq D] in
/-- In a handler only the descriptor at hand matters. -/
theorem elsewhere_loop (hphase : m.phase = .requests b rest)
    (hphase' : m'.phase = .requests b' rest') (hother : m'.descriptors d' = m.descriptors d')
    (hq : .descriptor d' ∈ m.opQueue → .descriptor d' ∈ m'.opQueue) (j : OpType) :
    (m'.Relies d' j → m.Relies d' j) ∧ (m.Notified d' j → m'.Notified d' j) := by
  refine ⟨fun hr => ?_, ?_⟩
  · have hdesc := hr.of_descriptor (by simp [hphase'])
    rw [hother] at hdesc
    exact hdesc.imp_right .inl
  · rintro (⟨hm, hc⟩ | ⟨_, _, _, hio, _⟩)
    · exact .inl ⟨hq hm, by rwa [hother]⟩
    · rw [hphase] at hio
      cases hio

/-- A new descriptor, at which nothing waits and everything is to be tried. -/
theorem Wakeful.register (h : Wakeful m k) (hphase : m.phase = .requests b rest)
    (hempty : ∀ j, (m.descriptors d).opQueue j = []) (now : OpType → Bool) :
    Wakeful ((m.registerDescriptor d).enter (.requests b' rest')) (k.add d now) := by
  have hother : ∀ d', d' ≠ d →
      ((m.registerDescriptor d).enter (.requests b' rest')).descriptors d' =
        m.descriptors d' := fun d' hne => by
    rw [enter_descriptors, registerDescriptor, modifyDescriptor_of_ne hne]
  have hself : ((m.registerDescriptor d).enter (.requests b' rest')).descriptors d =
      { m.descriptors d with registeredOut := false, trySpeculative := fun _ => true } := by
    rw [enter_descriptors, registerDescriptor, modifyDescriptor_self]
  refine h.elsewhere d (fun d' hd' hne => Finset.mem_of_mem_insert_of_ne hd' hne) hother
    (fun d' hne => elsewhere_loop hphase rfl (hother d' hne) id)
    (fun d' hne => ?_) (fun d' hne => ?_) (fun d' hne => ?_)
    (fun d' _ hl => Kernel.mem_notifyIfReady d hl)
    fun _ => ⟨?_, fun hw => ?_, fun j hr => ?_⟩
  · simp [Kernel.add, Function.update_of_ne hne]
  · simp [Kernel.add, Function.update_of_ne hne]
  · simp [Kernel.add, Function.update_of_ne hne]
  · simp [Kernel.add, hself]
  · rw [hself] at hw
    exact absurd (hempty _) hw
  · have hdesc := hr.of_descriptor (by simp)
    rw [hself] at hdesc
    simp [hempty] at hdesc

/-- With a descriptor goes what the kernel knows of it. -/
theorem Wakeful.deregister (h : Wakeful m k) (hphase : m.phase = .requests b rest)
    (aborted : O → R) :
    Wakeful ((m.deregisterDescriptor d aborted).enter (.requests b' rest')) (k.delete d) := by
  have hother : ∀ d', d' ≠ d →
      ((m.deregisterDescriptor d aborted).enter (.requests b' rest')).descriptors d' =
        m.descriptors d' := fun d' hne => deregisterDescriptor_of_ne m aborted hne
  refine h.elsewhere d (fun d' hd' _ => Finset.mem_of_mem_erase hd') hother
    (fun d' hne => elsewhere_loop hphase rfl (hother d' hne) fun hm => List.mem_append_left _ hm)
    (fun d' hne => ?_) (fun _ _ => rfl) (fun _ _ => rfl)
    (fun d' hne hl => (List.mem_erase_of_ne hne).mpr hl) fun hd => ?_
  · simp [Kernel.delete, Function.update_of_ne hne]
  · exact absurd rfl (Finset.ne_of_mem_erase hd)

/-- `start_op` with a try. -/
theorem Wakeful.tryNow {lasting : A → Prop} {attempt : Attempt R} (h : Wakeful m k)
    (hphase : m.phase = .requests b rest)
    (hk : Kernel.Serves lasting (.perform d j a attempt) k k')
    (hq : (m.descriptors d).opQueue j = []) (hspec : (m.descriptors d).trySpeculative j = true)
    (hreg : m'.registeredDescriptors = m.registeredDescriptors)
    (hdescriptors : m'.descriptors = m.descriptors ∨ (∃ r, attempt = .doneAndExhausted r) ∧
      m'.descriptors = (m.setSpeculative d j false).descriptors)
    (hops : ∃ ops, m'.opQueue = m.opQueue ++ entries ops)
    (hphase' : m'.phase = .requests b' rest' ∨
      attempt = .notDone ∧ ∃ o, m'.phase = .enqueue b' d j o rest') : Wakeful m' k' := by
  obtain ⟨ops, hops⟩ := hops
  have hqueue : ∀ d', (m'.descriptors d').opQueue = (m.descriptors d').opQueue := by
    rcases hdescriptors with hd | ⟨_, hd⟩ <;> simp [hd]
  have hout : ∀ d', (m'.descriptors d').registeredOut = (m.descriptors d').registeredOut := by
    rcases hdescriptors with hd | ⟨_, hd⟩ <;> simp [hd]
  have hresult : ∀ d', (m'.descriptors d').taskResult = (m.descriptors d').taskResult := by
    rcases hdescriptors with hd | ⟨_, hd⟩ <;> simp [hd]
  refine h.tried hk hreg hout (fun d' hw => hqueue d' ▸ hw) (fun r hdone hr => ?_)
    fun d' j' hne => ⟨fun hr => ?_, ?_⟩
  · rcases hphase' with hphase' | ⟨hnot, _⟩
    · have hdesc := hr.of_descriptor (by simp [hphase'])
      rcases hdescriptors with hd | ⟨⟨_, hexhausted⟩, _⟩
      · rw [hd, hq, hspec] at hdesc
        simp at hdesc
      · rw [hdone] at hexhausted
        cases hexhausted
    · rw [hdone] at hnot
      cases hnot
  · rcases hr with hw | ht | ⟨_, _, _, he⟩
    · exact .inl (hqueue d' ▸ hw)
    · refine .inr (.inl ?_)
      rcases hdescriptors with hd | ⟨_, hd⟩
      · rwa [← hd]
      · rwa [hd, setSpeculative_trySpeculative, if_neg hne] at ht
    · rcases hphase' with hphase' | ⟨_, _, hphase'⟩
      · rw [hphase'] at he
        cases he
      · rw [hphase'] at he
        obtain ⟨_, rfl, rfl, _⟩ := Phase.enqueue.inj he
        exact absurd ⟨rfl, rfl⟩ hne
  · rintro (⟨hm, hc⟩ | ⟨_, _, _, hio, _⟩)
    · exact .inl ⟨hops ▸ List.mem_append_left _ hm, by rwa [hresult]⟩
    · rw [hphase] at hio
      cases hio

/-- `perform_io` takes up the next type: the call of the first operation that waits, or none. -/
theorem Wakeful.take {lasting : A → Prop} {attempt : Attempt R} (h : Wakeful m k)
    (hphase : m.phase = .performIo d events (j :: types) ops)
    (hk : Kernel.Serves lasting (.perform d j a attempt) k k') (he : events.concern j = true)
    (hq : (m.descriptors d).opQueue j = o :: waiting) (b : Bool) (htypes : ∀ i ∈ types, i ∈ types')
    (hdone : ∀ r, attempt = .done r → j ∈ types') :
    Wakeful (((m.setSpeculative d j b).setOps d j waiting').enter
      (.performIo d events types' ops')) k' := by
  refine h.tried hk rfl (fun d' => by simp) (fun d' hw => ?_) (fun r hr _ => ?_) fun d' j' hne => ?_
  · rw [enter_descriptors, setOps_opQueue_apply] at hw
    split at hw
    · rename_i heq
      rw [heq.1, heq.2, hq]
      exact List.cons_ne_nil _ _
    · simpa using hw
  · exact .inr ⟨_, _, _, rfl, he, hdone r hr⟩
  · refine performIo_loop hphase rfl htypes rfl ?_ ?_ (by simp) hne
    · rw [enter_descriptors, setOps_opQueue_apply, if_neg hne, setSpeculative_opQueue]
    · rw [enter_descriptors, setOps_trySpeculative, setSpeculative_trySpeculative, if_neg hne]

/-- The reactor runs: what the kernel takes from its list is on its way. -/
theorem Wakeful.poll {lasting : A → Prop} (h : Wakeful m k) (hphase : m.phase = .idle)
    (hq : m.opQueue = .task :: rest) (hdone : ∀ e ∈ rest, e.done.isSome)
    (hk : Kernel.Serves lasting (.wait blocking events : Call D A R) k k') :
    Wakeful ({ m with opQueue := rest }.runTask events) k' := by
  have hnone : ∀ d j, ¬m.Notified d j := by
    rintro d j (⟨hm, _⟩ | ⟨_, _, _, hio, _⟩)
    · rw [hq] at hm
      cases hdone _ ((List.mem_cons.mp hm).resolve_left (by simp))
    · rw [hphase] at hio
      cases hio
  rw [runTask_eq]
  generalize hn : ({ m with opQueue := rest } : Scheduler D O R σ) = n
  have hsame : n.descriptors = m.descriptors := hn ▸ rfl
  have hinterest : k'.interest = k.interest := by cases hk <;> rfl
  have hready : k'.ready = k.ready := by cases hk <;> rfl
  have hstale : k'.stale = k.stale := by cases hk <;> rfl
  have hqueue : ∀ d, ((n.dispatch [] events).1.descriptors d).opQueue = (m.descriptors d).opQueue :=
    fun d => hsame ▸ dispatch_keeps (·.opQueue) (fun _ _ => rfl) events n [] d
  have hspec : ∀ d, ((n.dispatch [] events).1.descriptors d).trySpeculative =
      (m.descriptors d).trySpeculative := fun d =>
    hsame ▸ dispatch_keeps (·.trySpeculative) (fun _ _ => rfl) events n [] d
  have hout : ∀ d, ((n.dispatch [] events).1.descriptors d).registeredOut =
      (m.descriptors d).registeredOut := fun d =>
    hsame ▸ dispatch_keeps (·.registeredOut) (fun _ _ => rfl) events n [] d
  refine h.of (hn ▸ rfl) hout (fun d _ hw => .inl (by rwa [← hqueue])) hinterest
    fun d _ j hr hrdy => .inr ⟨?_, by rwa [← hready], fun ⟨hl, hi⟩ => ?_,
      fun hnot => absurd hnot (hnone d j), fun hs => by rw [hstale, hs]⟩
  · rcases hr with hw | ht | ⟨_, _, _, he⟩
    · exact .inl (by rwa [← hqueue])
    · exact .inr (.inl (by rwa [← hspec]))
    · exact .inr (.inr ⟨_, _, _, (hn ▸ he : m.phase = _)⟩)
  · cases hk with
    | wait hcount hreport =>
      rename_i taken
      rw [← List.take_append_drop taken k.readyList] at hl
      rcases List.mem_append.mp hl with hl | hl
      · obtain ⟨hmem, hc⟩ := dispatch_mem events n [] (.inr (hreport d hl j hi hrdy))
        exact .inr (.inl ⟨by simp [hmem], hc⟩)
      · exact .inl ⟨hl, hi⟩
    | interrupted => exact .inl ⟨hl, hi⟩

theorem Wakeful.call {call : Call D A R} {lasting : A → Prop} (h : Wakeful m k)
    (hr : m.Registered) (ho : Ordered m.opQueue) (hs : Step P call m m')
    (hk : Kernel.Serves lasting call k k') : Wakeful m' k' := by
  cases hs with
  | post hphase =>
    cases hk
    obtain ⟨hd, hreg⟩ := postImmediateCompletion_descriptors m _ _ _ _
    exact h.requests hphase rfl hreg hd (postImmediateCompletion_opQueue m _ _ _ _)
  | registerDescriptor hphase hd =>
    cases hk
    exact h.register hphase (hr.waiting _ hd) _
  | deregisterDescriptor hphase =>
    cases hk
    exact h.deregister hphase _
  | behind hphase hd hq =>
    cases hk
    exact h.waitForEvents (by simp [hphase]) (.inl hq) (fun hj => .inl (hj ▸ hq)) _
  | untried hphase hd hq hspec =>
    cases hk
    refine h.same rfl rfl (fun _ => id) ?_ (by simp [hphase])
    rintro b d j o rest ⟨⟩
    exact hspec
  | tried hphase hd hq hspec =>
    exact h.tryNow hphase hk hq hspec rfl (.inl rfl) ⟨[], (List.append_nil _).symm⟩
      (.inr ⟨rfl, _, rfl⟩)
  | immediate hphase hd hq hspec =>
    obtain ⟨hdesc, hreg⟩ := postImmediateCompletion_descriptors m _ _ _ _
    exact h.tryNow hphase hk hq hspec hreg (.inl hdesc) (postImmediateCompletion_opQueue m _ _ _ _)
      (.inl rfl)
  | immediateExhausted hphase hd hq hspec =>
    obtain ⟨hdesc, hreg⟩ := postImmediateCompletion_descriptors (m.setSpeculative _ _ _) _ _ _ _
    exact h.tryNow hphase hk hq hspec hreg (.inr ⟨⟨_, rfl⟩, hdesc⟩)
      (postImmediateCompletion_opQueue (m.setSpeculative _ _ _) _ _ _ _) (.inl rfl)
  | modify hphase =>
    cases hk
    refine (h.ask _).waitForEvents (fun _ _ _ _ he => ?_) (.inr (.inr ⟨_, _, _, hphase⟩))
      (fun _ => .inr (by rw [modifyDescriptor_self])) _
    rw [show (m.modifyDescriptor _ _).phase = m.phase from rfl, hphase] at he
    cases he
  | enqueue hphase hout =>
    cases hk
    exact h.waitForEvents (by simp [hphase]) (.inr (.inr ⟨_, _, _, hphase⟩))
      (fun hj => .inr (hout hj)) _
  | run hphase | noWork hphase | «return» hphase | sleep hphase =>
    cases hk
    exact h.same rfl rfl (fun _ => id) (by simp) (by simp [hphase])
  | workCleanup hphase =>
    cases hk
    obtain ⟨hdesc, hreg⟩ := workCleanup_descriptors m
    refine h.same hreg hdesc (fun d hd => ?_) (by simp) (by simp [hphase])
    exact (workCleanup_opQueue m).symm ▸ List.mem_append_left _ hd
  | task hphase hst hq => exact h.poll hphase hq (hq ▸ ho).behind_task hk
  | complete hphase hst hq =>
    cases hk
    refine h.same rfl rfl (fun d hd => ?_) (by simp) (by simp [hphase])
    rw [hq] at hd
    exact (List.mem_cons.mp hd).resolve_left (by simp)
  | descriptor hphase hst hq =>
    cases hk
    refine h.still rfl (fun _ => rfl) (fun _ _ => .inl) fun d' _ j hrel => ⟨?_, ?_⟩
    · exact (hrel.of_descriptor (by simp)).imp_right .inl
    · rintro (⟨hm, hc⟩ | ⟨_, _, _, hio, _⟩)
      · rw [hq] at hm
        rcases List.mem_cons.mp hm with he | hm
        · obtain rfl := Entry.descriptor.inj he
          exact .inr ⟨_, _, _, rfl, hc, by cases j <;> simp⟩
        · exact .inl ⟨hm, hc⟩
      · rw [hphase] at hio
        cases hio
  | skip hphase he =>
    cases hk
    refine h.still rfl (fun _ => rfl) (fun _ _ => .inl) fun d' _ j' hrel => ⟨?_, ?_⟩
    · exact (hrel.of_descriptor (by simp)).imp_right .inl
    · rintro (⟨hm, hc⟩ | ⟨_, _, _, hio, hc, hj⟩)
      · exact .inl ⟨hm, hc⟩
      · rw [hphase] at hio
        obtain ⟨rfl, rfl, rfl, rfl⟩ := Phase.performIo.inj hio
        rcases List.mem_cons.mp hj with rfl | hj
        · rw [he] at hc
          cases hc
        · exact .inr ⟨_, _, _, rfl, hc, hj⟩
  | nothing hphase he hq =>
    rename_i d j _ _ _
    cases hk
    refine h.still rfl (fun d' => by simp) (fun d' _ hw => .inl (by simpa using hw))
      fun d' _ j' hrel => ?_
    by_cases hne : d' = d ∧ j' = j
    · obtain ⟨rfl, rfl⟩ := hne
      have hdesc := hrel.of_descriptor (by simp)
      simp [setSpeculative_trySpeculative, hq] at hdesc
    · refine And.imp_left (fun hrelies => hrelies hrel)
        (performIo_loop hphase rfl (fun _ => id) rfl ?_ ?_ (by simp) hne)
      · simp
      · rw [enter_descriptors, setSpeculative_trySpeculative, if_neg hne]
  | notDone hphase he hq =>
    rename_i d j _ _ _ _
    have hsame := (m.setSpeculative d j true).setOps_self d j
    rw [← hsame]
    exact h.take hphase hk he hq true (fun _ => id) (by simp)
  | done hphase he hq =>
    exact h.take hphase hk he hq true (fun _ => List.mem_cons_of_mem _) (by simp)
  | exhausted hphase he hq => exact h.take hphase hk he hq false (fun _ => id) (by simp)
  | compensate hphase =>
    cases hk
    refine h.same rfl rfl (fun _ => id) (by simp) fun _ _ _ _ hio => ?_
    rw [hphase] at hio
    exact (Phase.performIo.inj hio).2.2.1.symm
  | first hphase =>
    cases hk
    refine h.same rfl rfl (fun d hd => List.mem_append_left _ hd) (by simp) fun _ _ _ _ hio => ?_
    rw [hphase] at hio
    exact (Phase.performIo.inj hio).2.2.1.symm

end Steps

section Runs
variable {P : Program D O A R σ} {lasting : A → Prop} {s : σ} {requests : List (Request D O R)}

/-- What the event loop and its kernel keep to. -/
structure Awake (x : Scheduler D O R σ × Kernel D) : Prop where
  sound : x.1.Sound
  wakeful : Wakeful x.1 x.2

theorem SystemStep.awake {label : Option (Call D A R)} {x y : Scheduler D O R σ × Kernel D}
    (h : Awake x) (hs : SystemStep P lasting label x y) : Awake y := by
  cases hs with
  | call hstep hk =>
    exact ⟨hstep.sound h.sound, h.wakeful.call h.sound.registered h.sound.ordered hstep hk⟩
  | happens hk => exact ⟨h.sound, h.wakeful.happens hk⟩

omit [DecidableEq D] in
theorem initial_awake (s : σ) (requests : List (Request D O R)) :
    Awake (initial s requests, ({} : Kernel D)) := by
  refine ⟨initial_sound s requests, fun d hd => ?_, fun d hd => ?_, fun d hd => ?_⟩
  all_goals exact absurd hd (Finset.notMem_empty d)

theorem run_awake {labels : List (Option (Call D A R))} {x : Scheduler D O R σ × Kernel D}
    (h : Agents.Schedule (SystemStep P lasting) labels (initial s requests, {}) x) : Awake x :=
  h.keeps (fun _ _ _ _ hx hs => hs.awake hx) (initial_awake s requests)

/-- An operation that waits although its call would not block. -/
theorem Awake.alert {m : Scheduler D O R σ} {k : Kernel D} (h : Awake (m, k))
    (hw : o ∈ (m.descriptors d).opQueue j) (hready : k.ready d j = true) :
    k.Listed d j ∨ m.Notified d j ∨ k.stale d j = true := by
  obtain ⟨hsound, hwakeful⟩ := h
  dsimp only at hsound hwakeful
  have hne : (m.descriptors d).opQueue j ≠ [] := List.ne_nil_of_mem hw
  have hd : d ∈ m.registeredDescriptors := by
    by_contra hd
    exact hne (hsound.registered.waiting d hd j)
  rcases hwakeful.alert d hd j (.inl hne) hready with hl | hn | hs | ⟨rfl, ho⟩
  · exact .inl hl
  · exact .inr (.inl hn)
  · exact .inr (.inr hs)
  · rw [hwakeful.asked d hd hne] at ho
    cases ho

/-- Where the thread goes to sleep, which it does in a wait that blocks with nothing for epoll
to report, no operation waits that could go on, as far as asio can see. -/
theorem Awake.asleep {m : Scheduler D O R σ} {k : Kernel D} (h : Awake (m, k))
    (hphase : m.phase = .idle) (hq : m.opQueue = [.task]) (hlist : k.readyList = [])
    (hw : o ∈ (m.descriptors d).opQueue j) : k.ready d j = false ∨ k.stale d j = true := by
  by_cases hready : k.ready d j = true
  · rcases h.alert hw hready with ⟨hl, _⟩ | (⟨hm, _⟩ | ⟨_, _, _, hio, _⟩) | hs
    · simp [hlist] at hl
    · simp [hq] at hm
    · rw [hphase] at hio
      cases hio
    · exact .inr hs
  · exact .inl (Bool.not_eq_true _ ▸ hready)

/-- No wakeup is lost, with epoll that reports an event once and asio that tries first. An
operation that waits although its call would not block is on its way to be tried: epoll will
report on its descriptor, or has reported, and the descriptor stands in the queue with the event
or is the one whose operations are being tried. The one exception is what asio cannot see, a
call that it has taken for blocked or exhausted and that is not. -/
theorem no_lost_wakeup {labels : List (Option (Call D A R))} {m : Scheduler D O R σ} {k : Kernel D}
    (h : Agents.Schedule (SystemStep P lasting) labels (initial s requests, {}) (m, k)) :
    ∀ d j, ∀ o ∈ (m.descriptors d).opQueue j, k.ready d j = true →
      k.Listed d j ∨ m.Notified d j ∨ k.stale d j = true :=
  fun _ _ _ hw hready => (run_awake h).alert hw hready

/-- The operation of the ticker waits when something to read comes. -/
theorem ticker_waits : ∃ x, Agents.Schedule (SystemStep ticker fun _ => False)
    [some (.add 0), some (.perform 0 .read false .notDone), some .none, none]
      (tickerMain, {}) x ∧
    (x.1.descriptors 0).opQueue .read = [7] ∧ x.2.ready 0 .read = true := by
  have hadd : Kernel.Serves (fun _ => False) (.add 0 : Call Nat Bool Unit) {}
    (Kernel.add {} 0 fun _ => false) := .add
  have hnotDone : ∀ k : Kernel Nat, Kernel.Serves (fun _ => False)
      (.perform 0 .read false .notDone : Call Nat Bool Unit) k
        ((k.setReady 0 .read false).setStale 0 .read false) := fun _ => .notDone (by simp)
  have harrive : ∀ k : Kernel Nat, k.Happens (k.arrive 0 .read) := fun _ => .arrive
  refine Agents.exists_cons (.call (.registerDescriptor rfl (by decide)) hadd) ?_
  refine Agents.exists_cons (.call (.tried rfl (by decide) rfl rfl rfl) (hnotDone _)) ?_
  refine Agents.exists_cons (.call (.enqueue rfl (by simp)) .none) ?_
  refine Agents.exists_cons (.happens (harrive _)) ?_
  exact ⟨_, .nil, rfl, rfl⟩

theorem no_lost_wakeup_sample : ∃ (m : Scheduler Nat Nat Unit Nat) (k : Kernel Nat),
    k.Listed 0 .read ∨ m.Notified 0 .read ∨ k.stale 0 .read = true := by
  obtain ⟨⟨m, k⟩, h, hq, hready⟩ := ticker_waits
  dsimp only at hq hready
  exact ⟨m, k, no_lost_wakeup h 0 .read 7 (by simp [hq]) hready⟩

end Runs

end Horcrux.Asio
