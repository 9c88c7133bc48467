import Horcrux.EventLoop
import Horcrux.Lib.Lists
import Horcrux.Proofs.Asio
import Horcrux.Proofs.Scheduler

namespace Horcrux
open Asio Asio.Scheduler

variable {D : Type} {mConfig : Config} {incoming : Nat → Bytes} {acceptor : D} {fs : FileSystem}

namespace AsioSession

def active (x : AsioSession) : Bool := x.conn.pending.isSome

/-- The operation that the connection has asked for last. -/
theorem wantedBy_request (x : AsioSession) (i : Nat) (d : D) (c : Bool)
    (rest : List (Request D ServerOp (Result D))) :
    wantedBy (x.request i d c :: rest) =
      (if x.active then {ServerOp.transfer i} else 0) + wantedBy rest := by
  unfold request active
  split
  · rename_i hp
    simp [hp]
  · rename_i op hp
    split <;> simp [hp]

end AsioSession

namespace ServerState

def active (s : ServerState D) (i : Nat) : Bool := (s.srv.connections i).any AsioSession.active

/-- The operations that the server has to have under way. -/
def due (s : ServerState D) : ServerOp → Nat
  | .accept k => if k + 1 = s.created then 1 else 0
  | .transfer i => if s.active i then 1 else 0

end ServerState

/-- The operations of the server are one accept and one transfer for each connection that is
at work. -/
structure Tended (p : Proactor ServerOp (ServerState D)) : Prop where
  count : ∀ o, p.pending.count o = p.state.due o
  created : ∀ i, p.state.srv.connections i ≠ none → i + 1 < p.state.created
  positive : 0 < p.state.created

theorem Tended.accept_mem {p : Proactor ServerOp (ServerState D)} (h : Tended p)
    (hp : p.pending = .accept k ::ₘ rest) : k + 1 = p.state.created ∧
      p.state.srv.connections k = none := by
  have hcount := h.count (.accept k)
  rw [hp, Multiset.count_cons_self] at hcount
  simp only [ServerState.due] at hcount
  split at hcount
  · rename_i hk
    refine ⟨hk, ?_⟩
    by_contra hne
    have hlt := h.created k hne
    omega
  · omega

section Accepting
variable {s : ServerState D}

namespace ServerState

@[simp] theorem handleAccept_created (s : ServerState D) (mConfig : Config)
    (incoming : Nat → Bytes) (acceptor : D) (k : Nat) (socket : Option D) :
    (s.handleAccept mConfig incoming acceptor k socket).1.created = s.created + 1 := by
  cases socket <;> rfl

theorem handleAccept_srv (s : ServerState D) (mConfig : Config) (incoming : Nat → Bytes)
    (acceptor : D) (k : Nat) (socket : Option D) :
    (s.handleAccept mConfig incoming acceptor k socket).1.srv =
      s.srv.handleAccept k mConfig (incoming k) socket.isNone := by
  cases socket <;> rfl

theorem handleAccept_active (s : ServerState D) (mConfig : Config) (incoming : Nat → Bytes)
    (acceptor : D) (k : Nat) (socket : Option D) (i : Nat) :
    (s.handleAccept mConfig incoming acceptor k socket).1.active i =
      if i = k ∧ socket.isSome then true else s.active i := by
  rw [active, handleAccept_srv]
  cases socket with
  | none => simp [AsioServer.handleAccept, active]
  | some d =>
    by_cases hi : i = k
    · subst hi
      simp [AsioServer.handleAccept, AsioSession.active, AsioSession.accepted]
      rfl
    · simp [AsioServer.handleAccept, active, hi]

theorem handleAccept_wanted (s : ServerState D) (mConfig : Config) (incoming : Nat → Bytes)
    (acceptor : D) (k : Nat) (socket : Option D) :
    wantedBy (s.handleAccept mConfig incoming acceptor k socket).2 =
      .accept s.created ::ₘ if socket.isSome then {ServerOp.transfer k} else 0 := by
  cases socket with
  | none => rfl
  | some d =>
    simp only [handleAccept, wantedBy_registerDescriptor, AsioSession.wantedBy_request]
    exact Multiset.add_comm _ _

end ServerState

/-- An accept leaves the next one behind, and the transfer of the connection that it has got. -/
theorem Tended.accepted (h : Tended ⟨.accept k ::ₘ rest, s⟩) (mConfig : Config)
    (incoming : Nat → Bytes) (acceptor : D) (socket : Option D) :
    Tended ⟨wantedBy (s.handleAccept mConfig incoming acceptor k socket).2 + rest,
      (s.handleAccept mConfig incoming acceptor k socket).1⟩ := by
  obtain ⟨hk, hnone⟩ := h.accept_mem rfl
  have hinactive : s.active k = false := by
    dsimp only at hnone
    simp [ServerState.active, hnone]
  refine ⟨fun o => ?_, fun i hi => ?_, ?_⟩
  · have hcount := h.count o
    dsimp only at hcount ⊢
    rw [ServerState.handleAccept_wanted]
    have hnew : ((if socket.isSome then {ServerOp.transfer k} else 0 : Multiset ServerOp)).count o =
        if o = .transfer k ∧ socket.isSome then 1 else 0 := by
      cases socket <;> simp [Multiset.count_singleton]
    rw [Multiset.count_cons] at hcount
    rw [Multiset.cons_add, Multiset.count_cons, Multiset.count_add, hnew]
    cases o with
    | accept j =>
      simp only [ServerState.due, ServerOp.accept.injEq] at hcount
      simp only [ServerState.due, ServerState.handleAccept_created, ServerOp.accept.injEq,
        reduceCtorEq, false_and, if_false, Nat.add_right_cancel_iff, zero_add]
      dsimp only at hk
      by_cases hj : j = k
      · subst hj
        simp only [if_true, hk] at hcount
        rw [if_neg (by omega)]
        omega
      · rw [if_neg hj, if_neg (by omega)] at hcount
        rw [← hcount]
        omega
    | transfer i =>
      simp only [ServerState.due, reduceCtorEq, if_false, add_zero] at hcount
      simp only [ServerState.due, ServerState.handleAccept_active, ServerOp.transfer.injEq,
        reduceCtorEq, if_false, add_zero, hcount]
      by_cases hi : i = k ∧ socket.isSome = true
      · rw [if_pos hi, if_pos hi, hi.1, hinactive]
        rfl
      · rw [if_neg hi, if_neg hi, zero_add]
  · dsimp only at hi ⊢
    rw [ServerState.handleAccept_srv] at hi
    rw [ServerState.handleAccept_created]
    by_cases he : i = k
    · dsimp only at hk
      omega
    · have hold : s.srv.connections i ≠ none := by
        cases socket with
        | none => exact hi
        | some d => simpa [AsioServer.handleAccept, he] using hi
      exact Nat.lt_succ_of_lt (h.created i hold)
  · dsimp only
    rw [ServerState.handleAccept_created]
    exact Nat.succ_pos _

end Accepting

section Transferring
variable {s s' : ServerState D}

/-- The completion of a transfer is one more try of it in the server that tries when it
completes. -/
theorem ServerState.transferred_some (h : s.transferred i results = some (s', requests)) :
    ∃ x d x' fs', s.srv.connections i = some x ∧ s.sockets i = some d ∧
      x.perform results s.srv.fs = .next (x', fs') ∧
      s' = { s with srv := ⟨fs', Function.update s.srv.connections i (some x')⟩ } ∧
      requests = [x'.request i d (x.continues results)] := by
  unfold transferred at h
  obtain ⟨x, hx, h⟩ := Option.bind_eq_some_iff.mp h
  obtain ⟨d, hd, h⟩ := Option.bind_eq_some_iff.mp h
  split at h
  · rename_i x' fs' hp
    obtain ⟨rfl, rfl⟩ := Prod.mk.inj (Option.some.inj h)
    exact ⟨x, d, x', fs', hx, hd, hp, rfl, rfl⟩
  · cases h

/-- A transfer leaves the next one of its connection behind, if there is one. -/
theorem Tended.transferred (h : Tended ⟨.transfer i ::ₘ rest, s⟩)
    (ht : s.transferred i results = some (s', requests)) :
    Tended ⟨wantedBy requests + rest, s'⟩ := by
  obtain ⟨x, d, x', fs', hx, hd, hp, rfl, rfl⟩ := ServerState.transferred_some ht
  refine ⟨fun o => ?_, fun j hj => ?_, h.positive⟩
  · have hcount := h.count o
    rw [Multiset.count_cons] at hcount
    dsimp only at hcount ⊢
    rw [AsioSession.wantedBy_request, wantedBy_nil, add_zero, Multiset.count_add]
    cases o with
    | accept k =>
      simp only [ServerState.due, reduceCtorEq, if_false, add_zero] at hcount ⊢
      rw [hcount]
      split <;> simp
    | transfer j =>
      simp only [ServerState.due, ServerOp.transfer.injEq] at hcount ⊢
      by_cases hj : j = i
      · subst hj
        rw [if_pos rfl] at hcount
        have hrest : rest.count (.transfer j) = 0 := by
          split at hcount <;> omega
        rw [hrest]
        simp only [ServerState.active, Function.update_self, Option.any_some]
        split <;> simp
      · rw [if_neg hj, add_zero] at hcount
        have hother : ({ s with
            srv := ⟨fs', Function.update s.srv.connections i (some x')⟩ } :
              ServerState D).active j = s.active j := by
          simp [ServerState.active, Function.update_of_ne hj]
        rw [hcount, hother]
        split <;> simp [hj]
  · by_cases he : j = i
    · subst he
      exact h.created j (by simp [hx])
    · dsimp only at hj
      rw [Function.update_of_ne he] at hj
      exact h.created j hj

end Transferring

section Sockets

namespace ServerState

/-- The socket of a connection that is at work. -/
def socketOf (s : ServerState D) (i : Nat) : Option D := if s.active i then s.sockets i else none

/-- The sockets that the server has to hold: that of the acceptor and those of the connections
at work. -/
def holds (s : ServerState D) (acceptor : D) : Multiset D :=
  acceptor ::ₘ (Multiset.range s.created).filterMap s.socketOf

variable [DecidableEq D]

theorem holds_transferred (h : Tended ⟨.transfer i ::ₘ rest, s⟩)
    (ht : s.transferred i results = some (s', requests)) (acceptor : D) :
    s'.holds acceptor = registeredAfter (s.holds acceptor) requests := by
  obtain ⟨x, d, x', fs', hx, hd, _, rfl, rfl⟩ := transferred_some ht
  have hcount := h.count (.transfer i)
  rw [Multiset.count_cons_self] at hcount
  have hactive : s.active i = true := by
    by_contra hne
    simp [due, hne] at hcount
  have hi : i ∈ Multiset.range s.created := by
    rw [Multiset.mem_range]
    exact Nat.lt_of_succ_lt (h.created i (by simp [hx]))
  generalize hs : ({ s with
    srv := ⟨fs', Function.update s.srv.connections i (some x')⟩ } : ServerState D) = t
  have hother : ∀ j, j ≠ i → t.socketOf j = s.socketOf j := fun j hj => by
    have hsame : t.active j = s.active j := by simp [← hs, active, Function.update_of_ne hj]
    rw [socketOf, socketOf, hsame, ← hs]
  have hat : t.socketOf i = if x'.active then some d else none := by
    have hsame : t.active i = x'.active := by simp [← hs, active]
    rw [socketOf, hsame, ← hs, hd]
  have hbefore : s.socketOf i = some d := by rw [socketOf, hactive, if_pos rfl, hd]
  have hcreated : t.created = s.created := by rw [← hs]
  cases hx' : x'.active with
  | false =>
    have hrequest : x'.request i d (x.continues results) = .deregisterDescriptor d := by
      rw [AsioSession.active, Option.isSome_eq_false_iff, Option.isNone_iff_eq_none] at hx'
      simp [AsioSession.request, hx']
    have hupdate := Lists.filterMap_update (Multiset.nodup_range s.created) hi
      (fun j hj => (hother j hj).symm) (by rw [hat, hx']; rfl) hbefore
    rw [hrequest]
    simp only [registeredAfter, holds, hupdate, hcreated]
    rw [Multiset.cons_swap, Multiset.erase_cons_head]
  | true =>
    have hrequest : ∀ ds : Multiset D,
        registeredAfter ds [x'.request i d (x.continues results)] = ds := by
      intro ds
      obtain ⟨op, hop⟩ := Option.isSome_iff_exists.mp hx'
      simp only [AsioSession.request, hop]
      split <;> rfl
    have hsame : t.socketOf = s.socketOf := by
      funext j
      by_cases hj : j = i
      · rw [hj, hat, hx', if_pos rfl, hbefore]
      · exact hother j hj
    rw [hrequest, holds, holds, hsame, hcreated]

theorem holds_accepted (h : Tended ⟨.accept k ::ₘ rest, s⟩) (mConfig : Config)
    (incoming : Nat → Bytes) (acceptor : D) (socket : Option D) :
    (s.handleAccept mConfig incoming acceptor k socket).1.holds acceptor =
      registeredAfter (s.holds acceptor) (s.handleAccept mConfig incoming acceptor k socket).2 := by
  obtain ⟨hk, hnone⟩ := h.accept_mem rfl
  dsimp only at hk hnone
  generalize hs : (s.handleAccept mConfig incoming acceptor k socket).1 = t
  have hcreated : t.created = s.created + 1 := by rw [← hs, handleAccept_created]
  have hactive : ∀ i, t.active i = if i = k ∧ socket.isSome then true else s.active i :=
    fun i => by rw [← hs, handleAccept_active]
  have hrest : ∀ i, i ≠ k → t.active i = s.active i := fun i hi => by
    rw [hactive, if_neg fun hc => hi hc.1]
  have hold : s.active k = false := by simp [active, hnone]
  have hfresh : t.socketOf s.created = none := by
    have hne : s.created ≠ k := by omega
    have hfalse : s.active s.created = false := by
      by_contra hne
      have hsome : s.srv.connections s.created ≠ none := fun he => by simp [active, he] at hne
      have hlt := h.created s.created hsome
      dsimp only at hlt
      omega
    rw [socketOf, hrest _ hne, hfalse]
    rfl
  have hholds : t.holds acceptor =
      acceptor ::ₘ (Multiset.range s.created).filterMap t.socketOf := by
    rw [holds, hcreated, Multiset.range_succ, Multiset.filterMap_cons_none _ _ hfresh]
  rw [hholds]
  cases socket with
  | none =>
    have hsame : t.socketOf = s.socketOf := by
      funext i
      rw [socketOf, socketOf, hactive, ← hs]
      simp
      rfl
    rw [hsame]
    rfl
  | some d =>
    have hother : ∀ i, i ≠ k → t.socketOf i = s.socketOf i := by
      intro i hi
      rw [socketOf, socketOf, hrest i hi, ← hs]
      simp [handleAccept, startAccept, hi]
    have hnew : t.socketOf k = some d := by
      have hk' : t.active k = true := by simp [hactive]
      rw [socketOf, hk', if_pos rfl, ← hs]
      simp [handleAccept, startAccept]
    rw [Lists.filterMap_update (Multiset.nodup_range s.created) (Multiset.mem_range.mpr (by omega))
      hother (by rw [socketOf, hold]; rfl) hnew, Multiset.cons_swap]
    rfl

end ServerState

end Sockets

section Refinement

/-- The bag of operations of the server is the server above the system calls. -/
theorem proactor_refines (mConfig : Config) (incoming : Nat → Bytes) (acceptor : D) :
    Agents.Refines (Proactor.Step (serverProgram mConfig incoming acceptor))
      (AsioServer.Step mConfig incoming fun _ _ => True)
      fun p srv => Tended p ∧ srv = p.state.srv := by
  intro act p p' srv hp hs
  obtain ⟨ht, rfl⟩ := hp
  obtain ⟨pending, state⟩ := p
  cases hs with
  | complete hpending hc =>
    rename_i o rest r s requests
    dsimp only at hpending hc
    subst hpending
    match o, r, hc with
    | .accept k, .accepted socket, hc =>
      obtain ⟨rfl, rfl⟩ := Prod.mk.inj (Option.some.inj hc)
      refine ⟨[.accept k socket.isNone], _, .single (.accept (ht.accept_mem rfl).2),
        ht.accepted mConfig incoming acceptor socket, ?_⟩
      exact (ServerState.handleAccept_srv _ _ _ _ _ _).symm
    | .transfer i, .transferred results, hc =>
      obtain ⟨x, d, x', fs', hx, _, hp, rfl, _⟩ := ServerState.transferred_some hc
      exact ⟨[.perform i results], _, .single (.perform hx trivial hp), ht.transferred hc, rfl⟩

theorem main_tended (fs : FileSystem) (acceptor : D) :
    Tended ⟨(serverMain fs acceptor).pending, (serverMain fs acceptor).state⟩ := by
  refine ⟨fun o => ?_, fun i hi => absurd rfl hi, Nat.one_pos⟩
  have hpending : (serverMain fs acceptor).pending = {ServerOp.accept 0} := rfl
  cases o with
  | accept k =>
    have hcreated : (serverMain fs acceptor).state.created = 1 := rfl
    simp [hpending, Multiset.count_singleton, ServerState.due, hcreated]
  | transfer i => rw [hpending]; rfl

variable [DecidableEq D]

/-- What the server in its event loop keeps to: the books of the scheduler, that its operations
are those that are due, and that no socket is registered but those that it holds. -/
structure AtWork (acceptor : D) (m : Scheduler D ServerOp (Result D) (ServerState D)) : Prop where
  sound : m.Sound
  tended : Tended ⟨m.pending, m.state⟩
  registry : m.registry = m.state.holds acceptor

theorem AtWork.registry_step {m m' : Scheduler D ServerOp (Result D) (ServerState D)}
    {call : Call D (Answer D) (Result D)} (h : AtWork acceptor m)
    (hs : Step (serverProgram mConfig incoming acceptor) call m m') :
    m'.registry = m'.state.holds acceptor := by
  rcases hs.registry with ⟨hstate, hsame⟩ | ⟨o, r, requests, hc, hmem, hdone, hafter⟩
  · rw [hstate, hsame, h.registry]
  · obtain ⟨rest, hpending⟩ := Multiset.exists_cons_of_mem (mem_pending hmem)
    have ht := h.tended
    rw [hpending] at ht
    rw [hafter, ← hdone, h.registry]
    match o, r, hc with
    | .accept k, .accepted socket, hc =>
      have he : m.state.handleAccept mConfig incoming acceptor k socket = (m'.state, requests) :=
        Option.some.inj hc
      have hholds := ServerState.holds_accepted ht mConfig incoming acceptor socket
      rw [he] at hholds
      exact hholds.symm
    | .transfer i, .transferred results, hc =>
      exact (ServerState.holds_transferred ht hc acceptor).symm

theorem eventLoop_refines (mConfig : Config) (incoming : Nat → Bytes) (acceptor : D) :
    Agents.Refines (Step (serverProgram mConfig incoming acceptor))
      (AsioServer.Step mConfig incoming fun _ _ => True)
      fun m srv => AtWork acceptor m ∧ srv = m.state.srv := by
  intro call m m' srv hm hs
  obtain ⟨hw, rfl⟩ := hm
  obtain ⟨acts, srv', hrun, p, ⟨hsound, rfl⟩, htended, hsrv⟩ :=
    (refines (serverProgram mConfig incoming acceptor)).trans (proactor_refines _ _ _)
      call m m' m.state.srv ⟨_, ⟨hw.sound, rfl⟩, hw.tended, rfl⟩ hs
  exact ⟨acts, srv', hrun, ⟨hsound, htended, hw.registry_step hs⟩, hsrv⟩

theorem main_atWork (fs : FileSystem) (acceptor : D) : AtWork acceptor (serverMain fs acceptor) :=
  ⟨initial_sound _ _, main_tended fs acceptor, rfl⟩

theorem run_atWork
    (h : Agents.Schedule (Step (serverProgram mConfig incoming acceptor)) calls
      (serverMain fs acceptor) m) : AtWork acceptor m := by
  obtain ⟨_, _, _, hw, _⟩ := (eventLoop_refines mConfig incoming acceptor).run
    ⟨main_atWork fs acceptor, rfl⟩ h
  exact hw

/-- The server as it really runs, in the event loop of asio over epoll, is the server that
takes up whatever connection it likes: what holds of its connections and files in every run of
the one holds in every run of the other. -/
theorem eventLoop_run
    (h : Agents.Schedule (Step (serverProgram mConfig incoming acceptor)) calls
      (serverMain fs acceptor) m) :
    ∃ acts, Agents.Schedule (AsioServer.Step mConfig incoming fun _ _ => True) acts
      (.listening fs) m.state.srv := by
  obtain ⟨acts, srv, hrun, _, rfl⟩ := (eventLoop_refines mConfig incoming acceptor).run
    ⟨main_atWork fs acceptor, rfl⟩ h
  exact ⟨acts, hrun⟩

/-- A client comes before the loop is entered, and has sent three bytes when it is accepted. -/
def firstClient : List (Call Nat (Answer Nat) (Result Nat)) :=
  [.add 0, .perform 0 .read (.accept [.interrupted, .socket 5]) (.done (.accepted (some 5))),
    .none, .wait false [], .none, .add 5,
    .perform 5 .read (.transfer [.bytes 3]) (.done (.transferred [.bytes 3])),
    .perform 0 .read (.accept [.wouldBlock]) .notDone, .none, .none]

theorem firstClient_run : ∃ m, Agents.Schedule (Step (serverProgram {} (fun _ => [1, 2, 3]) 0))
    firstClient (serverMain (outDirectory []) 0) m ∧ m.phase = .idle ∧
      m.state.active 0 = true ∧ m.state.created = 2 := by
  refine Agents.exists_cons (.registerDescriptor rfl (by decide)) ?_
  refine Agents.exists_cons (.immediate rfl (by decide) rfl rfl rfl) ?_
  refine Agents.exists_cons (.run rfl (by decide)) ?_
  refine Agents.exists_cons (.wait rfl rfl rfl rfl) ?_
  refine Agents.exists_cons (.complete rfl rfl rfl rfl) ?_
  refine Agents.exists_cons (.registerDescriptor rfl (by decide)) ?_
  refine Agents.exists_cons (.immediate rfl (by decide) rfl rfl rfl) ?_
  refine Agents.exists_cons (.tried rfl (by decide) rfl rfl rfl) ?_
  refine Agents.exists_cons (.enqueue rfl (by simp)) ?_
  refine Agents.exists_cons (.workCleanup rfl) ?_
  exact ⟨_, .nil, rfl, rfl, rfl⟩

theorem eventLoop_run_sample : ∃ (srv : AsioServer Nat) (acts : List (AsioServer.Act Nat)),
    Agents.Schedule (AsioServer.Step {} (fun _ => [1, 2, 3]) fun _ _ => True) acts
      (.listening (outDirectory [])) srv ∧ srv.connections 0 ≠ none := by
  obtain ⟨m, h, _, hactive, _⟩ := firstClient_run
  obtain ⟨acts, hrun⟩ := eventLoop_run h
  refine ⟨m.state.srv, acts, hrun, fun hnone => ?_⟩
  simp [ServerState.active, hnone] at hactive

omit [DecidableEq D] in
/-- The operations of the server, in full. -/
theorem Tended.pending_eq {p : Proactor ServerOp (ServerState D)} (h : Tended p) :
    p.pending = .accept (p.state.created - 1) ::ₘ
      ((Multiset.range p.state.created).filter fun i => p.state.active i).map .transfer := by
  have hinj : Function.Injective ServerOp.transfer := fun _ _ he => ServerOp.transfer.inj he
  have hpos := h.positive
  refine Multiset.ext.mpr fun o => ?_
  rw [h.count, Multiset.count_cons]
  cases o with
  | accept k =>
    have hnone : (((Multiset.range p.state.created).filter fun i => p.state.active i).map
        ServerOp.transfer).count (.accept k) = 0 := by simp
    rw [hnone, ServerState.due, zero_add]
    refine if_congr ?_ rfl rfl
    rw [ServerOp.accept.injEq]
    omega
  | transfer i =>
    have hne : ServerOp.transfer i ≠ .accept (p.state.created - 1) := by simp
    rw [Multiset.count_map_eq_count' _ _ hinj, ServerState.due, if_neg hne, add_zero]
    cases hi : p.state.active i with
    | false =>
      rw [Multiset.count_eq_zero_of_notMem (by simp [hi])]
      rfl
    | true =>
      have hlt : i < p.state.created := by
        have hsome : p.state.srv.connections i ≠ none := fun he => by
          simp [ServerState.active, he] at hi
        exact Nat.lt_of_succ_lt (h.created i hsome)
      have hmem : i ∈ (Multiset.range p.state.created).filter fun i => p.state.active i :=
        Multiset.mem_filter.mpr ⟨Multiset.mem_range.mpr hlt, hi⟩
      exact (Multiset.count_eq_one_of_mem ((Multiset.nodup_range _).filter _) hmem).symm

/-- The server never comes to an end of its loop, and holds what it needs and no more. In every
run it has one accept under way and one transfer for each connection at work, and for the
connections that are through nothing; at the head of the loop the work that is counted is
theirs, and the sockets in epoll are that of the acceptor and one for each of these
connections, no two of which have the same. -/
theorem serves_forever
    (h : Agents.Schedule (Step (serverProgram mConfig incoming acceptor)) calls
      (serverMain fs acceptor) m) :
    m.phase ≠ .returned ∧ m.phase ≠ .asleep ∧
      m.pending = .accept (m.state.created - 1) ::ₘ
        ((Multiset.range m.state.created).filter fun i => m.state.active i).map .transfer ∧
      (m.phase = .idle → m.stopped = false ∧ m.outstandingWork =
          1 + ((Multiset.range m.state.created).filter fun i => m.state.active i).card ∧
        m.registeredDescriptors.val = m.state.holds acceptor) := by
  have hw := run_atWork h
  have hpending := hw.tended.pending_eq
  dsimp only at hpending
  have hops : m.phase.wanted = 0 → m.operations = m.pending := fun hz => by
    rw [pending, hz, zero_add]
  refine ⟨fun hphase => ?_, fun hphase => ?_, hpending, fun hphase => ?_⟩
  · have hz := hw.sound.returned hphase
    rw [hops (by simp [hphase, Phase.wanted]), hpending] at hz
    exact Multiset.cons_ne_zero hz
  · have hs := hw.sound.settled
    simp only [Settled, hphase] at hs
  · have hsettled := hw.sound.settled
    simp only [Settled, hphase] at hsettled
    have hoperations := hops (by simp [hphase, Phase.wanted])
    refine ⟨?_, ?_, ?_⟩
    · by_contra hst
      rw [Bool.not_eq_false, hw.sound.stopped_iff hphase, hoperations, hpending] at hst
      exact Multiset.cons_ne_zero hst
    · rw [hw.sound.work_eq (by simp [hphase, Phase.handling]) hsettled.1, hoperations, hpending]
      simp [add_comm]
    · rw [← hw.registry, Scheduler.registry, hphase]
      rfl

theorem serves_forever_sample : ∃ m : Scheduler Nat ServerOp (Result Nat) (ServerState Nat),
    m.phase = .idle ∧ m.state.active 0 = true ∧ m.stopped = false ∧
      m.registeredDescriptors.val = m.state.holds 0 := by
  obtain ⟨m, h, hphase, hactive, _⟩ := firstClient_run
  obtain ⟨_, _, _, hidle⟩ := serves_forever h
  exact ⟨m, hphase, hactive, (hidle hphase).1, (hidle hphase).2.2⟩

end Refinement

end Horcrux
