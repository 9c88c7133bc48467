import Horcrux.Proofs.Served
import Horcrux.Proofs.Wakeups

namespace Horcrux
open Asio Asio.Scheduler

variable {D : Type} {mConfig : Config} {incoming : Nat → Bytes} {acceptor : D} {fs : FileSystem}

section Alone
variable [DecidableEq D] {m m' : Scheduler D ServerOp (Result D) (ServerState D)}
  {call : Call D (Answer D) (Result D)}

theorem AtWork.due (h : AtWork acceptor m) (ho : o ∈ m.pending) : 0 < m.state.due o := by
  have hcount := h.tended.count o
  dsimp only at hcount
  rwa [← hcount, Multiset.count_pos]

theorem AtWork.waiting_pending (h : AtWork acceptor m) (ho : o ∈ (m.descriptors d).opQueue j) :
    o ∈ m.pending :=
  Multiset.mem_add.mpr (.inr (h.sound.registered.mem_operations ho))

/-- One operation at the most has its place at one place. -/
theorem AtWork.place_unique (h : AtWork acceptor m) (hd : m.Held d)
    (hplace : m.state.Place acceptor d j o) (hplace' : m.state.Place acceptor d j o')
    (ho : o ∈ m.pending) (ho' : o' ∈ m.pending) : o' = o := by
  have hactive : ∀ {i x op}, m.state.srv.connections i = some x → x.conn.pending = some op →
      m.state.active i = true := fun hx hop => by
    simp [ServerState.active, AsioSession.active, hx, hop]
  cases o with
  | accept k =>
    cases o' with
    | accept k' =>
      have hdue := h.due ho
      have hdue' := h.due ho'
      simp only [ServerState.due] at hdue hdue'
      split at hdue
      · split at hdue'
        · exact congrArg _ (by omega)
        · cases hdue'
      · cases hdue
    | transfer i =>
      obtain ⟨hs, x, op, hx, hop, _⟩ := hplace'
      exact absurd hplace.1 (h.socket_unique hd (hactive hx hop) hs).1
  | transfer i =>
    obtain ⟨hs, x, op, hx, hop, _⟩ := hplace
    obtain ⟨hne, hunique⟩ := h.socket_unique hd (hactive hx hop) hs
    cases o' with
    | accept k => exact absurd hplace'.1 hne
    | transfer i' =>
      obtain ⟨hs', x', op', hx', hop', _⟩ := hplace'
      exact congrArg _ (hunique i' (hactive hx' hop') hs')

/-- An operation is started only where none waits: it would be the same one. -/
theorem Seated.starts_empty (h : Seated acceptor m) (hw : AtWork acceptor m) (ht : Tidy m)
    (hs : m.Starts d j o) : (m.descriptors d).opQueue j = [] := by
  by_contra hne
  obtain ⟨o', ho'⟩ := List.exists_mem_of_ne_nil _ hne
  obtain rfl := hw.place_unique (ht.held (hw.registered ho') hs) (h.starting d j o hs.starting)
    (h.waiting d j o' ho') (Multiset.mem_add.mpr (.inl hs.wanted)) (hw.waiting_pending ho')
  have hwanted := Multiset.count_pos.mpr hs.wanted
  have hwaiting := Multiset.count_pos.mpr (hw.sound.registered.mem_operations ho')
  have hle := hw.count_le o'
  rw [pending, Multiset.count_add] at hle
  omega

/-- No socket is closed that is waited at. -/
theorem Seated.not_delete (h : Seated acceptor m) (hw : AtWork acceptor m) (ht : Tidy m)
    (hs : Step (serverProgram mConfig incoming acceptor) (.delete d) m m') :
    o ∉ (m.descriptors d).opQueue j := by
  intro ho
  cases hs with
  | deregisterDescriptor hphase hd =>
    rename_i b rest
    have hrest : ∀ request ∈ rest, request ≠ (.registerDescriptor d : Request D _ _) := by
      rintro request hr rfl
      refine ht d ?_
      rw [hphase]
      exact hr
    have hcount : (m.state.holds acceptor).count d = 0 := by
      rw [← hw.registry, Scheduler.registry, hphase]
      refine Nat.le_zero.mp ((count_registeredAfter_le _ hrest).trans ?_)
      rw [Multiset.count_erase_self,
        Multiset.count_eq_one_of_mem m.registeredDescriptors.nodup hd]
    refine Multiset.count_eq_zero.mp hcount ?_
    have hplace := h.waiting d j o ho
    have hdue := hw.due (hw.waiting_pending ho)
    cases o with
    | accept k => exact hplace.1 ▸ Multiset.mem_cons_self _ _
    | transfer i =>
      obtain ⟨hs, _⟩ := hplace
      have hi : m.state.active i = true := by
        by_contra hi
        simp [ServerState.due, hi] at hdue
      refine Multiset.mem_cons_of_mem ((Multiset.mem_filterMap _ _).mpr ⟨i, ?_, ?_⟩)
      · exact hw.mem_created hi
      · rw [ServerState.socketOf, if_pos hi, hs]

end Alone

section Runs
variable [DecidableEq D] {labels : ℕ → Option (Call D (Answer D) (Result D))}
  {run : ℕ → Scheduler D ServerOp (Result D) (ServerState D) × Kernel D}

theorem vigilant_at
    (h : FairRun (serverProgram mConfig incoming acceptor) Answer.Lasting
      (serverMain fs acceptor, {}) run labels) (n : ℕ) : Vigilant acceptor (run n) := by
  induction n with
  | zero => exact h.start ▸ main_vigilant fs acceptor
  | succ n ih => exact ih.step (h.step n)

theorem tidy_at
    (h : FairRun (serverProgram mConfig incoming acceptor) Answer.Lasting
      (serverMain fs acceptor, {}) run labels) (n : ℕ) : Tidy (run n).1 := by
  induction n with
  | zero => exact h.start ▸ main_tidy fs acceptor
  | succ n ih => exact (h.step n).goes.keeps ih fun _ hstep => Tidy.step ih hstep

theorem single_at
    (h : FairRun (serverProgram mConfig incoming acceptor) Answer.Lasting
      (serverMain fs acceptor, {}) run labels) (n : ℕ) : Single (run n).1 := by
  induction n with
  | zero =>
    rw [h.start]
    exact fun _ _ => Nat.zero_le 1
  | succ n ih =>
    have hv := vigilant_at h n
    exact (h.step n).goes.keeps ih fun _ hstep =>
      ih.step hstep fun _ _ _ => hv.seated.starts_empty hv.atWork (tidy_at h n)

/-- Every client is heard, in any run of the server on its kernel that goes on for ever, where
epoll is not interrupted in all of the waits from some time on. No two operations wait in one
queue, and no socket is closed that is waited at; and the server comes to make the call that an
accept or a transfer waits for, once this would not block and asio has not taken it for one that
does: for this operation and no other, which waits alone in its queue up to then, and however
much the other clients send. -/
theorem every_client_heard
    (h : FairRun (serverProgram mConfig incoming acceptor) Answer.Lasting
      (serverMain fs acceptor, {}) run labels) :
    (∀ n d j, (((run n).1.descriptors d).opQueue j).length ≤ 1) ∧
      (∀ n d, labels n = some (.delete d) → ∀ j, ((run n).1.descriptors d).opQueue j = []) ∧
      ∀ n d j, ∀ o ∈ ((run n).1.descriptors d).opQueue j,
        (run n).2.ready d j = true → (run n).2.stale d j = false →
        ∃ n', n ≤ n' ∧ (∀ i, n ≤ i → i ≤ n' → ((run i).1.descriptors d).opQueue j = [o]) ∧
          ∃ a attempt, labels n' = some (.perform d j a attempt) ∧
            (serverProgram mConfig incoming acceptor).perform (run n').1.state o a =
              some attempt := by
  have hdelete : ∀ {n d}, labels n = some (.delete d) → ∀ {j o},
      o ∉ ((run n).1.descriptors d).opQueue j := fun {n d} hl {j o} => by
    have hv := vigilant_at h n
    exact hv.seated.not_delete hv.atWork (tidy_at h n) ((h.step n).step hl)
  refine ⟨fun n => single_at h n, fun n d hl j => ?_, fun n d j o ho hready hstale => ?_⟩
  · exact List.eq_nil_iff_forall_not_mem.mpr fun o => hdelete hl
  obtain ⟨n', hle, hmade, hwaits⟩ := h.eventually_made ⟨ho, hready, hstale⟩
  have hqueue : ∀ i, n ≤ i → i ≤ n' → ((run i).1.descriptors d).opQueue j = [o] :=
    fun i hi hi' => (single_at h i).opQueue (hwaits i hi hi').1
  refine ⟨n', hle, hqueue, ?_⟩
  have hw := (hwaits n' hle (le_refl _)).1
  rcases hmade with ⟨a, attempt, hl⟩ | hl
  · obtain ⟨o', waiting, hq, hp⟩ := ((h.step n').step hl).head hw
    obtain ⟨rfl, rfl⟩ := List.cons.inj (hq.symm.trans (hqueue n' hle (le_refl _)))
    exact ⟨a, attempt, hl, hp⟩
  · exact absurd hw (hdelete hl)

end Runs

section Fair

/-- The server can wait for ever. -/
theorem Idle.again {x : Scheduler Nat ServerOp (Result Nat) (ServerState Nat) × Kernel Nat}
    (h : Idle x) : ∃ label labels y,
      Agents.Schedule (Lively (serverProgram {} (fun _ => []) 0) Answer.Lasting)
        (label :: labels) x y ∧ Idle y := by
  obtain ⟨m, k⟩ := x
  have hwait : Kernel.Serves Answer.Lasting (.wait true [] : Call Nat (Answer Nat) (Result Nat)) k
      { k with readyList := k.readyList.drop 128 } := by
    refine .wait (.inl (le_refl _)) fun d hd => ?_
    rw [show k.readyList = [] from h.readyList] at hd
    cases hd
  refine ⟨some (.wait true []), [], ?_⟩
  refine Agents.exists_cons ⟨.call (.wait h.phase h.stopped h.opQueue rfl) hwait, _, rfl, ?_⟩ ?_
  · exact fun blocking events he => ⟨⟨_, _, he⟩, .inl h.readyList⟩
  · exact ⟨_, .nil, h.phase, h.stopped, rfl, congrArg (List.drop 128) h.readyList⟩

/-- The quiet client has sent something, which the server finds to be nothing. -/
theorem QuietClient.heard {x : Scheduler Nat ServerOp (Result Nat) (ServerState Nat) × Kernel Nat}
    (h : QuietClient x) :
    ∃ y, SystemStep (serverProgram {} (fun _ => []) 0) Answer.Lasting none x y ∧
      Waits y 5 .read (.transfer 0) ∧ ∃ labels z, Agents.Schedule
        (Lively (serverProgram {} (fun _ => []) 0) Answer.Lasting) labels y z ∧ Idle z := by
  obtain ⟨m, k⟩ := x
  have hlist : (k.arrive 5 .read).readyList = [5] := by
    have hinterest : (k.setReady 5 .read true).interest 5 .read = true := h.interest.1
    have hempty : (k.setReady 5 .read true).readyList = [] := h.readyList
    simp [Kernel.arrive, hinterest, Kernel.notify, hempty]
  have hnotDone : ∀ k : Kernel Nat, Kernel.Serves Answer.Lasting
      (.perform 5 .read (.transfer [.wouldBlock]) .notDone : Call Nat (Answer Nat) (Result Nat)) k
        ((k.setReady 5 .read false).setStale 5 .read false) := fun _ => .notDone (by simp)
  have hperform : (serverProgram {} (fun _ => []) 0).perform m.state (.transfer 0)
      (.transfer [.wouldBlock]) = some .notDone := by
    simp only [serverProgram, show m.state.srv.connections 0 = _ from h.connection]
    rfl
  have hwait : Kernel.Serves Answer.Lasting
      (.wait true [(5, { input := true })] : Call Nat (Answer Nat) (Result Nat))
      (k.arrive 5 .read)
      { k.arrive 5 .read with readyList := (k.arrive 5 .read).readyList.drop 128 } := by
    refine .wait (.inl (le_refl _)) fun d hd j hi _ => ?_
    rw [hlist] at hd
    obtain rfl : d = 5 := List.mem_singleton.mp hd
    cases j with
    | read => exact ⟨_, List.mem_singleton_self _, rfl⟩
    | write =>
      rw [Kernel.arrive_interest, show k.interest 5 .write = false from h.interest.2] at hi
      cases hi
  refine ⟨(m, k.arrive 5 .read), .happens .arrive, ⟨?_, ?_, ?_⟩,
    [some (.wait true [(5, { input := true })]), some .none, some .none,
      some (.perform 5 .read (.transfer [.wouldBlock]) .notDone), some .none, some .none], ?_⟩
  · exact h.waiting ▸ List.mem_singleton_self _
  · rw [Kernel.arrive_ready, if_pos ⟨rfl, rfl⟩]
  · rw [Kernel.arrive_stale]
    exact h.stale
  refine Agents.exists_cons ⟨.call (.wait h.phase h.stopped h.opQueue rfl) hwait, _, rfl, ?_⟩ ?_
  · exact fun blocking events he => ⟨⟨_, _, he⟩, .inr (by simp [hlist])⟩
  refine Agents.exists_cons (.call (.descriptor h.phase h.stopped rfl) .none (by simp)) ?_
  refine Agents.exists_cons (.call (.skip rfl rfl) .none (by simp)) ?_
  refine Agents.exists_cons (.call (.notDone rfl rfl h.waiting hperform) (hnotDone _) (by simp)) ?_
  refine Agents.exists_cons (.call (.compensate rfl) .none (by simp)) ?_
  refine Agents.exists_cons (.call (.workCleanup rfl) .none (by simp)) ?_
  obtain ⟨hops, hwork⟩ := h.privateWork
  dsimp only at hops hwork
  refine ⟨_, .nil, rfl, ?_, ?_, ?_⟩
  · simp [enter, workCleanup, compensatingWorkStarted, setSpeculative, modifyDescriptor, runTask_eq,
      hwork, show m.stopped = false from h.stopped]
  · simp [enter, workCleanup, compensatingWorkStarted, setSpeculative, modifyDescriptor, runTask_eq,
      hwork, hops, dispatch, entries]
  · exact congrArg (List.drop 128) hlist

theorem every_client_heard_sample :
    ∃ (labels : ℕ → Option (Call Nat (Answer Nat) (Result Nat))) (n : ℕ),
      12 ≤ n ∧ ∃ a attempt, labels n = some (.perform 5 .read a attempt) := by
  obtain ⟨x, hstart, hquiet⟩ := quietClient_run
  obtain ⟨y, harrive, hw, _, _, hs, hz⟩ := hquiet.heard
  obtain ⟨run, labels, hrun, rfl⟩ :=
    Lively.exists_run Idle (fun _ h => h.again) (hstart.append (.single harrive)) hs hz
  obtain ⟨_, _, hheard⟩ := every_client_heard hrun
  obtain ⟨n, hle, _, a, attempt, hl, _⟩ := hheard _ 5 .read _ hw.1 hw.2.1 hw.2.2
  exact ⟨labels, n, hle, a, attempt, hl⟩

end Fair

end Horcrux
