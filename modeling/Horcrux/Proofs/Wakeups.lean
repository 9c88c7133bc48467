import Horcrux.Proofs.EventLoop
import Horcrux.Proofs.Waiting

namespace Horcrux
open Asio Asio.Scheduler

variable {D : Type} {mConfig : Config} {incoming : Nat → Bytes} {acceptor : D} {fs : FileSystem}

namespace ServerState
variable {s s' : ServerState D}

/-- Where an operation of the server waits: an accept at the acceptor, and the transfer of a
connection, if it has something to transfer, at its socket in the queue of its type. -/
def Place (acceptor : D) (s : ServerState D) (d : D) (j : OpType) : ServerOp → Prop
  | .accept _ => d = acceptor ∧ j = .read
  | .transfer i => s.sockets i = some d ∧ ∃ x op, s.srv.connections i = some x ∧
      x.conn.pending = some op ∧ op.opType = j ∧ x.buffers.prepare x.maxSize ≠ 0

theorem request_place (hx : s.srv.connections i = some x) (hd : s.sockets i = some d)
    (h : .startOp d' j o c' = x.request i d c) : s.Place acceptor d' j o := by
  unfold AsioSession.request at h
  split at h
  · cases h
  · rename_i op hp
    split at h
    · cases h
    · rename_i hsize
      obtain ⟨rfl, rfl, rfl, rfl⟩ := Request.startOp.inj h
      exact ⟨hd, x, op, hx, hp, rfl, hsize⟩

theorem perform_transfer (hx : s.srv.connections i = some x)
    (h : (serverProgram mConfig incoming acceptor).perform s (.transfer i) (.transfer results) =
      some attempt) :
    ∃ got, x.attempt results = some got ∧ attempt = got.map .transferred := by
  have hmap : (x.attempt results).map (·.map .transferred) = some attempt := by
    simpa [serverProgram, hx] using h
  obtain ⟨got, hgot, he⟩ := Option.map_eq_some_iff.mp hmap
  exact ⟨got, hgot, he.symm⟩

/-- What a handler starts has its place. -/
theorem requested_place
    (h : (serverProgram mConfig incoming acceptor).complete s o r = some (s', requests))
    (hr : .startOp d j o' c ∈ requests) : s'.Place acceptor d j o' := by
  match o, r, h with
  | .accept k, .accepted none, h =>
    obtain ⟨rfl, rfl⟩ := Prod.mk.inj (Option.some.inj h)
    obtain ⟨rfl, rfl, rfl, _⟩ := Request.startOp.inj (List.mem_singleton.mp hr)
    exact ⟨rfl, rfl⟩
  | .accept k, .accepted (some d'), h =>
    obtain ⟨rfl, rfl⟩ := Prod.mk.inj (Option.some.inj h)
    rcases List.mem_cons.mp hr with hr | hr
    · cases hr
    · rcases List.mem_cons.mp hr with hr | hr
      · refine request_place (Function.update_self _ _ _) (Function.update_self _ _ _) hr
      · obtain ⟨rfl, rfl, rfl, _⟩ := Request.startOp.inj (List.mem_singleton.mp hr)
        exact ⟨rfl, rfl⟩
  | .transfer i, .transferred results, h =>
    obtain ⟨x, d', x', fs', _, hd, _, rfl, rfl⟩ := transferred_some h
    exact request_place (Function.update_self _ _ _) hd (List.mem_singleton.mp hr)

/-- A handler leaves the places of the other operations alone. -/
theorem completed_place
    (h : (serverProgram mConfig incoming acceptor).complete s o r = some (s', requests))
    (hp : s.Place acceptor d j o') (hne : o' ≠ o) (hnew : ∀ k, o = .accept k → o' ≠ .transfer k) :
    s'.Place acceptor d j o' := by
  match o', hp with
  | .accept _, hp => exact hp
  | .transfer i, ⟨hd, x, op, hx, hop, hj⟩ =>
    match o, r, h with
    | .accept k, .accepted none, h =>
      obtain ⟨rfl, rfl⟩ := Prod.mk.inj (Option.some.inj h)
      exact ⟨hd, x, op, hx, hop, hj⟩
    | .accept k, .accepted (some d'), h =>
      obtain ⟨rfl, rfl⟩ := Prod.mk.inj (Option.some.inj h)
      have hik : i ≠ k := fun he => hnew k rfl (he ▸ rfl)
      exact ⟨(Function.update_of_ne hik _ _).trans hd, x, op,
        (Function.update_of_ne hik _ _).trans hx, hop, hj⟩
    | .transfer i', .transferred results, h =>
      obtain ⟨_, _, _, _, _, _, _, rfl, _⟩ := transferred_some h
      have hik : i ≠ i' := fun he => hne (he ▸ rfl)
      exact ⟨hd, x, op, (Function.update_of_ne hik _ _).trans hx, hop, hj⟩

theorem request_ne (x : AsioSession) (i : Nat) (d d' : D) (c : Bool) :
    x.request i d c ≠ .registerDescriptor d' := by
  unfold AsioSession.request
  split
  · simp
  · split <;> simp

/-- A handler registers a socket before it asks for anything else. -/
theorem completed_tidy
    (h : (serverProgram mConfig incoming acceptor).complete s o r = some (s', requests)) (d : D) :
    .registerDescriptor d ∉ requests.tail := by
  intro hd
  match o, r, h with
  | .accept k, .accepted none, h =>
    obtain ⟨rfl, rfl⟩ := Prod.mk.inj (Option.some.inj h)
    cases hd
  | .accept k, .accepted (some d'), h =>
    obtain ⟨rfl, rfl⟩ := Prod.mk.inj (Option.some.inj h)
    rcases List.mem_cons.mp hd with hd | hd
    · exact request_ne _ _ _ _ _ hd.symm
    · cases List.mem_singleton.mp hd
  | .transfer i, .transferred results, h =>
    obtain ⟨_, _, _, _, _, _, _, rfl, rfl⟩ := transferred_some h
    cases hd

end ServerState

section Places
variable [DecidableEq D] {m m' : Scheduler D ServerOp (Result D) (ServerState D)}
  {call : Call D (Answer D) (Result D)}

theorem AtWork.count_le (h : AtWork acceptor m) (o : ServerOp) : m.pending.count o ≤ 1 := by
  have hcount := h.tended.count o
  dsimp only at hcount
  rw [hcount]
  cases o <;> simp only [ServerState.due] <;> split <;> omega

/-- An operation that has completed is under way nowhere else, and the transfer of a connection
that is accepted is not either. -/
theorem AtWork.completed (h : AtWork acceptor m) (hops : m.operations = o ::ₘ m'.operations)
    (ho' : o' ∈ m'.operations) :
    o' ≠ o ∧ ∀ k, o = .accept k → o' ≠ .transfer k := by
  refine ⟨?_, ?_⟩
  · rintro rfl
    have hle := h.count_le o'
    rw [pending, Multiset.count_add, hops, Multiset.count_cons_self] at hle
    have hpos := Multiset.count_pos.mpr ho'
    omega
  · rintro k rfl rfl
    have hpending : m.pending = .accept k ::ₘ (m.phase.wanted + m'.operations) := by
      rw [pending, hops, Multiset.add_cons]
    obtain ⟨_, hnone⟩ := h.tended.accept_mem hpending
    have hcount := h.tended.count (.transfer k)
    dsimp only at hnone hcount
    have hpos : 0 < m.pending.count (.transfer k) := by
      rw [Multiset.count_pos, hpending]
      exact Multiset.mem_cons_of_mem (Multiset.mem_add.mpr (.inr ho'))
    rw [hcount] at hpos
    simp [ServerState.due, ServerState.active, hnone] at hpos

/-- Every operation waits in its place, and the running code puts it nowhere else. -/
structure Seated (acceptor : D) (m : Scheduler D ServerOp (Result D) (ServerState D)) : Prop where
  waiting : ∀ d j, ∀ o ∈ (m.descriptors d).opQueue j, m.state.Place acceptor d j o
  starting : ∀ d j o, m.Starting d j o → m.state.Place acceptor d j o

theorem Seated.step (h : Seated acceptor m) (hw : AtWork acceptor m)
    (hs : Step (serverProgram mConfig incoming acceptor) call m m') : Seated acceptor m' := by
  have hw' := hs.registered hw.sound.registered
  have hbefore : ∀ d j, ∀ o ∈ (m'.descriptors d).opQueue j, m.state.Place acceptor d j o :=
    fun d j o ho => (hs.queues ho).elim (h.waiting d j o) (h.starting d j o)
  have hsame : m'.state = m.state → Seated acceptor m' := fun hstate => by
    refine ⟨fun d j o ho => hstate ▸ hbefore d j o ho, fun d j o hst => ?_⟩
    rcases hs.starting hst with hst | ⟨_, _, _, _, hc, _, hr⟩
    · exact hstate ▸ h.starting d j o hst
    · exact ServerState.requested_place hc hr
  cases hs.effect hw.sound.registered hw.sound.settled.nonneg with
  | quiet hstate => exact hsame hstate
  | starts o hstate => exact hsame hstate
  | completes o r requests hc hwanted hphase hmem hops =>
    refine ⟨fun d j o' ho' => ?_, fun d j o' hst => ?_⟩
    · obtain ⟨hne, hnew⟩ := hw.completed hops (hw'.mem_operations ho')
      exact ServerState.completed_place hc (hbefore d j o' ho') hne hnew
    · rcases hst with ⟨c, hr⟩ | ⟨b, rest, he⟩
      · rw [hphase] at hr
        exact ServerState.requested_place hc hr
      · rw [hphase] at he
        cases he

theorem Tidy.step (h : Tidy m) (hs : Step (serverProgram mConfig incoming acceptor) call m m') :
    Tidy m' := by
  intro d hd
  rcases hs.behind_or with hsuffix | ⟨o, r, requests, hc, hphase⟩
  · exact h d (hsuffix.subset hd)
  · rw [hphase] at hd
    exact ServerState.completed_tidy hc d hd

theorem AtWork.registered (h : AtWork acceptor m) (ho : o ∈ (m.descriptors d).opQueue j) :
    d ∈ m.registeredDescriptors := by
  by_contra hd
  rw [h.sound.registered.waiting d hd j] at ho
  cases ho

omit [DecidableEq D] in
theorem main_tidy (fs : FileSystem) (acceptor : D) : Tidy (serverMain fs acceptor) := by
  intro d hd
  cases List.mem_singleton.mp hd

omit [DecidableEq D] in
theorem main_seated (fs : FileSystem) (acceptor : D) :
    Seated acceptor (serverMain fs acceptor) := by
  refine ⟨fun d j o ho => absurd ho (List.not_mem_nil), fun d j o hst => ?_⟩
  rcases hst with ⟨c, hr⟩ | ⟨b, rest, he⟩
  · rcases List.mem_cons.mp hr with hr | hr
    · cases hr
    · obtain ⟨rfl, rfl, rfl, _⟩ := Request.startOp.inj (List.mem_singleton.mp hr)
      exact ⟨rfl, rfl⟩
  · cases he

end Places

section Sockets
variable [DecidableEq D] {m : Scheduler D ServerOp (Result D) (ServerState D)}

/-- What is not to be registered again is registered no more often afterwards. -/
theorem count_registeredAfter_le {O R : Type} {requests : List (Request D O R)} (ds : Multiset D)
    (h : ∀ request ∈ requests, request ≠ .registerDescriptor d) :
    (registeredAfter ds requests).count d ≤ ds.count d := by
  induction requests generalizing ds with
  | nil => exact le_refl _
  | cons request rest ih =>
    have hrest := fun ds => ih ds fun request hr => h request (List.mem_cons_of_mem _ hr)
    cases request with
    | post | startOp => exact hrest ds
    | registerDescriptor d' =>
      have hne : d ≠ d' := fun he => h _ List.mem_cons_self (he ▸ rfl)
      have hle := hrest (d' ::ₘ ds)
      rwa [Multiset.count_cons_of_ne hne] at hle
    | deregisterDescriptor d' =>
      exact (hrest (ds.erase d')).trans (Multiset.count_le_of_le _ (Multiset.erase_le _ _))

theorem AtWork.count_holds (h : AtWork acceptor m) (hd : m.Held d) :
    (m.state.holds acceptor).count d ≤ 1 := by
  rw [← h.registry, Scheduler.registry]
  refine (count_registeredAfter_le _ hd.2).trans ?_
  exact Multiset.nodup_iff_count_le_one.mp m.registeredDescriptors.nodup d

theorem AtWork.mem_created (h : AtWork acceptor m) (hi : m.state.active i = true) :
    i ∈ Multiset.range m.state.created := by
  rw [Multiset.mem_range]
  refine Nat.lt_of_succ_lt (h.tended.created i fun hnone => ?_)
  dsimp only at hnone
  simp [ServerState.active, hnone] at hi

/-- A socket that is registered belongs to one connection at work, and that of the acceptor to
none. -/
theorem AtWork.socket_unique (h : AtWork acceptor m) (hd : m.Held d)
    (hi : m.state.active i = true) (hs : m.state.sockets i = some d) :
    d ≠ acceptor ∧ ∀ i', m.state.active i' = true → m.state.sockets i' = some d → i' = i := by
  have hsocket : ∀ {i}, m.state.active i = true → m.state.sockets i = some d →
      m.state.socketOf i = some d := fun hi hs => by rw [ServerState.socketOf, if_pos hi, hs]
  have hcount := h.count_holds hd
  obtain ⟨rest, hrest⟩ := Multiset.exists_cons_of_mem (h.mem_created hi)
  rw [ServerState.holds, hrest, Multiset.filterMap_cons_some _ _ _ (hsocket hi hs)] at hcount
  refine ⟨?_, fun i' hi' hs' => ?_⟩
  · rintro rfl
    rw [Multiset.count_cons_self, Multiset.count_cons_self] at hcount
    omega
  · by_contra hne
    have hmem' := h.mem_created hi'
    rw [hrest] at hmem'
    obtain ⟨rest', rfl⟩ := Multiset.exists_cons_of_mem
      ((Multiset.mem_cons.mp hmem').resolve_left hne)
    rw [Multiset.filterMap_cons_some _ _ _ (hsocket hi' hs')] at hcount
    have hle : ((d ::ₘ d ::ₘ rest'.filterMap m.state.socketOf).count d) ≤
        (acceptor ::ₘ d ::ₘ d ::ₘ rest'.filterMap m.state.socketOf).count d :=
      Multiset.count_le_count_cons _ _ _
    rw [Multiset.count_cons_self, Multiset.count_cons_self] at hle
    omega

end Sockets

section Ends

/-- A transfer that has come to the end of the stream, or to an error. -/
def AsioSession.Spent (x : AsioSession) (results : List SysResult) : Prop :=
  ∃ op, x.conn.pending = some op ∧ op.opType = .read ∧ x.status results = some (.done true 0)

theorem AsioSession.handler_error_inactive {x x' : AsioSession} (hop : x.conn.pending = some op)
    (htype : op.opType = .read) (h : x.handler true fs = .next (x', fs')) : x'.active = false := by
  unfold handler at h
  rw [hop] at h
  cases op with
  | readPreRequestHeader | readRequestHeader | readRequestContent =>
    obtain ⟨rfl, rfl⟩ := Prod.mk.inj (Outcome.next.inj h)
    rfl
  | sendResponse outcome next => cases htype

/-- A connection whose read has failed or is at the end of the stream is through. -/
theorem AsioSession.Spent.perform {x x' : AsioSession} (h : x.Spent results)
    (hp : x.perform results fs = .next (x', fs')) : x'.active = false := by
  obtain ⟨op, hop, htype, hstatus⟩ := h
  have hne : x.buffers.prepare x.maxSize ≠ 0 := fun hz => by
    rw [status, if_pos hz] at hstatus
    cases hstatus
  rw [status, if_neg hne, hop] at hstatus
  have hrecv : nonBlockingRecv1 results = some (.done true 0) ∧
      x.recvSome results fs = .next (x', fs') := by
    rw [AsioSession.perform, hop] at hp
    cases op with
    | readPreRequestHeader | readRequestHeader | readRequestContent => exact ⟨hstatus, hp⟩
    | sendResponse outcome next => cases htype
  obtain ⟨hrecv, hsome⟩ := hrecv
  rw [recvSome, if_neg hne, hrecv] at hsome
  dsimp only at hsome
  rw [if_pos ⟨Nat.zero_le _, Nat.zero_le _⟩, transferred_ends (.inl rfl)] at hsome
  refine handler_error_inactive ?_ htype hsome
  dsimp only
  rw [TcpConnection.fillBuffer_pending, hop]

/-- A read of something is one of `recv`. -/
theorem AsioSession.status_read {x : AsioSession} (hop : x.conn.pending = some op)
    (htype : op.opType = .read) (hsize : x.buffers.prepare x.maxSize ≠ 0) :
    x.status results = nonBlockingRecv1 results := by
  rw [status, if_neg hsize, hop]
  cases op with
  | readPreRequestHeader | readRequestHeader | readRequestContent => rfl
  | sendResponse outcome next => cases htype

theorem AsioSession.attempt_read {x : AsioSession} (hop : x.conn.pending = some op)
    (htype : op.opType = .read) (hsize : x.buffers.prepare x.maxSize ≠ 0)
    (h : x.attempt results = some got) :
    nonBlockingRecv1 results = some .notDone ∧ got = .notDone ∨
      ∃ ec k, nonBlockingRecv1 results = some (.done ec k) ∧
        got = if k = 0 then .doneAndExhausted results else .done results := by
  have hstatus : x.status results = nonBlockingRecv1 results := status_read hop htype hsize
  unfold AsioSession.attempt at h
  rw [hop, hstatus] at h
  cases hr : nonBlockingRecv1 results with
  | none =>
    rw [hr] at h
    cases h
  | some st =>
    rw [hr] at h
    cases st with
    | notDone => exact .inl ⟨rfl, (Option.some.inj h).symm⟩
    | done ec k =>
      refine .inr ⟨ec, k, rfl, ?_⟩
      cases op with
      | readPreRequestHeader | readRequestHeader | readRequestContent =>
        dsimp only at h
        split at h
        · exact (Option.some.inj h).symm
        · cases h
      | sendResponse outcome next => cases htype

end Ends

section Sight
variable [DecidableEq D] {m m' : Scheduler D ServerOp (Result D) (ServerState D)}
  {k k' : Kernel D} {call : Call D (Answer D) (Result D)}

/-- Where asio takes a read for blocked or exhausted that is not, the connection has come to its
end, which its handler is still to learn of. -/
def Sighted (m : Scheduler D ServerOp (Result D) (ServerState D)) (k : Kernel D) : Prop :=
  ∀ d, m.Held d → m.Blind k d .read → ∀ i x, m.state.sockets i = some d →
    m.state.srv.connections i = some x → x.active = true →
      ∃ results, (.transfer i, .transferred results) ∈ m.queued ++ m.phase.held ∧ x.Spent results

/-- The transfer that has brought the end is what asio has lost sight by. -/
theorem Seated.sighted (h : Seated acceptor m) (hw' : AtWork acceptor m') (hd : m'.Held d)
    (hb : m.Blinded (serverProgram mConfig incoming acceptor) Answer.Lasting m' d .read)
    (hs : m'.state.sockets i = some d) (hx : m'.state.srv.connections i = some x)
    (hactive : x.active = true) :
    ∃ results, (.transfer i, .transferred results) ∈ m'.queued ++ m'.phase.held ∧
      x.Spent results := by
  obtain ⟨hstate, o, a, hplace, hb⟩ := hb
  have hi : m'.state.active i = true := by simp [ServerState.active, hx, hactive]
  obtain ⟨hne, hunique⟩ := hw'.socket_unique hd hi hs
  have hplace : m'.state.Place acceptor d .read o :=
    hstate ▸ hplace.elim (h.starting d .read o) (h.waiting d .read o)
  rw [← hstate] at hb
  cases o with
  | accept n => exact absurd hplace.1 hne
  | transfer i' =>
    obtain ⟨hs', x', op, hx', hop, htype, hsize⟩ := hplace
    cases a with
    | accept results => rcases hb with ⟨r, hp, _⟩ | ⟨hp, _⟩ <;> cases hp
    | transfer results =>
      have hi' : m'.state.active i' = true := by
        simp [ServerState.active, AsioSession.active, hx', hop]
      obtain rfl := hunique i' hi' hs'
      obtain rfl : x' = x := Option.some.inj (hx'.symm.trans hx)
      rcases hb with ⟨r, hp, hmem⟩ | ⟨hp, hlasting⟩
      · obtain ⟨got, ha, hgot⟩ := ServerState.perform_transfer hx' hp
        rcases AsioSession.attempt_read hop htype hsize ha with ⟨_, rfl⟩ | ⟨ec, n, hrecv, rfl⟩
        · cases hgot
        · split at hgot
          · rename_i hn
            subst hn
            obtain rfl := Attempt.doneAndExhausted.inj hgot
            refine ⟨results, hmem, op, hop, htype, ?_⟩
            rw [AsioSession.status_read hop htype hsize, hrecv]
            cases ec with
            | true => rfl
            | false => exact absurd (nonBlockingRecv1_bytes hrecv) (by omega)
          · cases hgot
      · obtain ⟨got, ha, hgot⟩ := ServerState.perform_transfer hx' hp
        rw [Answer.Lasting] at hlasting
        rcases AsioSession.attempt_read hop htype hsize ha with ⟨hrecv, _⟩ | ⟨ec, n, _, rfl⟩
        · rw [hrecv] at hlasting
          cases hlasting
        · split at hgot <;> cases hgot

omit [DecidableEq D] in
/-- With the completion of a transfer that has come to its end the connection is through. -/
theorem AsioSession.Spent.completed {x x₀ : AsioSession} (h : x₀.Spent results)
    {s s' : ServerState D}
    (hx₀ : s.srv.connections i = some x₀) (hc : (serverProgram mConfig incoming acceptor).complete
      s (.transfer i) (.transferred results) = some (s', requests))
    (hx : s'.srv.connections i = some x) : x.active = false := by
  obtain ⟨x₁, d, x', fs', hx₁, _, hp, rfl, _⟩ := ServerState.transferred_some hc
  obtain rfl : x₀ = x₁ := Option.some.inj (hx₀.symm.trans hx₁)
  dsimp only at hx
  rw [Function.update_self] at hx
  obtain rfl := Option.some.inj hx
  exact h.perform hp

/-- The connection before the step. -/
theorem AtWork.connection_before (hw : AtWork acceptor m) (hd : m'.Held d)
    (hs : Step (serverProgram mConfig incoming acceptor) call m m')
    (hsocket : m'.state.sockets i = some d) (hx : m'.state.srv.connections i = some x)
    (hactive : x.active = true) :
    m.state.sockets i = some d ∧ ∃ x₀, m.state.srv.connections i = some x₀ ∧ x₀.active = true ∧
      (x₀ = x ∨ .transfer i ∉ m'.operations) := by
  have hsame : m'.state = m.state → m.state.sockets i = some d ∧ ∃ x₀,
      m.state.srv.connections i = some x₀ ∧ x₀.active = true ∧
        (x₀ = x ∨ .transfer i ∉ m'.operations) := fun hstate => by
    rw [hstate] at hsocket hx
    exact ⟨hsocket, x, hx, hactive, .inl rfl⟩
  cases hs.effect hw.sound.registered hw.sound.settled.nonneg with
  | quiet hstate => exact hsame hstate
  | starts o hstate => exact hsame hstate
  | completes o r requests hc hwanted hphase hmem hops =>
    match o, r, hc with
    | .accept n, .accepted none, hc =>
      obtain ⟨hstate, _⟩ := Prod.mk.inj (Option.some.inj hc)
      rw [← hstate] at hsocket hx
      exact ⟨hsocket, x, hx, hactive, .inl rfl⟩
    | .accept n, .accepted (some d'), hc =>
      obtain ⟨hstate, hrequests⟩ := Prod.mk.inj (Option.some.inj hc)
      rw [← hstate] at hsocket hx
      have hne : i ≠ n := by
        rintro rfl
        obtain rfl : d' = d := by
          simpa [ServerState.handleAccept, ServerState.startAccept] using hsocket
        refine hd.2 (.registerDescriptor d') ?_ rfl
        rw [hphase, ← hrequests]
        exact List.mem_cons_self
      exact ⟨(Function.update_of_ne hne _ _).symm.trans hsocket, x,
        (Function.update_of_ne hne _ _).symm.trans hx, hactive, .inl rfl⟩
    | .transfer i', .transferred results, hc =>
      obtain ⟨x₁, d', x', fs', hx₁, _, _, hstate, _⟩ := ServerState.transferred_some hc
      rw [hstate] at hsocket hx
      by_cases he : i = i'
      · subst he
        refine ⟨hsocket, x₁, hx₁, ?_, .inr fun hm => (hw.completed hops hm).1 rfl⟩
        have hcount := hw.tended.count (.transfer i)
        have hpos : 0 < m.pending.count (.transfer i) := by
          rw [Multiset.count_pos, pending, hops]
          exact Multiset.mem_add.mpr (.inr (Multiset.mem_cons_self _ _))
        by_contra hinactive
        dsimp only at hcount
        simp [hcount, ServerState.due, ServerState.active, hx₁, hinactive] at hpos
      · exact ⟨hsocket, x, (Function.update_of_ne he _ _).symm.trans hx, hactive, .inl rfl⟩

theorem Sighted.step (h : Sighted m k) (hseated : Seated acceptor m) (hw : AtWork acceptor m)
    (hw' : AtWork acceptor m') (hs : Step (serverProgram mConfig incoming acceptor) call m m')
    (hk : Kernel.Serves Answer.Lasting call k k') : Sighted m' k' := by
  intro d hd hb i x hsocket hx hactive
  rcases hs.blind hk hb with hblind | hblinded
  · rcases hs.held hd with hd₀ | ⟨rfl, hspec⟩
    · obtain ⟨hsocket₀, x₀, hx₀, hactive₀, hsame⟩ :=
        hw.connection_before hd hs hsocket hx hactive
      obtain ⟨results, hmem, hspent⟩ := h d hd₀ hblind i x₀ hsocket₀ hx₀ hactive₀
      rcases hs.kept hmem with hmem | ⟨requests, hc, _⟩
      · obtain rfl := hsame.resolve_right fun hnot => hnot (mem_operations hmem)
        exact ⟨results, hmem, hspent⟩
      · rw [hspent.completed hx₀ hc hx] at hactive
        cases hactive
    · cases hk
      simp [Blind, hspec, Kernel.add] at hb
  · exact hseated.sighted hw' hd hblinded hsocket hx hactive

end Sight

section Sleep
variable [DecidableEq D]

/-- All that the server keeps to on its kernel. -/
structure Vigilant (acceptor : D)
    (x : Scheduler D ServerOp (Result D) (ServerState D) × Kernel D) : Prop where
  awake : Awake x
  atWork : AtWork acceptor x.1
  seated : Seated acceptor x.1
  sighted : Sighted x.1 x.2

theorem AtWork.step {m m' : Scheduler D ServerOp (Result D) (ServerState D)}
    {call : Call D (Answer D) (Result D)} (h : AtWork acceptor m)
    (hs : Step (serverProgram mConfig incoming acceptor) call m m') : AtWork acceptor m' := by
  obtain ⟨_, _, _, hw, _⟩ := eventLoop_refines mConfig incoming acceptor call m m' _ ⟨h, rfl⟩ hs
  exact hw

theorem Vigilant.step {label : Option (Call D (Answer D) (Result D))}
    {x y : Scheduler D ServerOp (Result D) (ServerState D) × Kernel D} (h : Vigilant acceptor x)
    (hs : SystemStep (serverProgram mConfig incoming acceptor) Answer.Lasting label x y) :
    Vigilant acceptor y := by
  have hawake := hs.awake h.awake
  cases hs with
  | call hstep hk =>
    have hw := h.atWork.step hstep
    exact ⟨hawake, hw, h.seated.step h.atWork hstep,
      h.sighted.step h.seated h.atWork hw hstep hk⟩
  | happens hk =>
    refine ⟨hawake, h.atWork, h.seated, fun d hd hb => h.sighted d hd ?_⟩
    rwa [Blind, hk.stale] at hb

theorem main_vigilant (fs : FileSystem) (acceptor : D) :
    Vigilant acceptor (serverMain fs acceptor, {}) := by
  refine ⟨initial_awake _ _, main_atWork fs acceptor, main_seated fs acceptor, fun d hd => ?_⟩
  exact absurd hd.1 (Finset.notMem_empty d)

/-- Where nothing stands in the queue but the task, every operation waits at a descriptor. -/
theorem Vigilant.waits {m : Scheduler D ServerOp (Result D) (ServerState D)} {k : Kernel D}
    (h : Vigilant acceptor (m, k)) (hphase : m.phase = .idle) (hq : m.opQueue = [.task])
    (ho : 0 < m.state.due o) :
    m.queued ++ m.phase.held = [] ∧ ∃ d, m.Held d ∧ ∃ j, o ∈ (m.descriptors d).opQueue j := by
  have hw : AtWork acceptor m := h.atWork
  have hsettled := hw.sound.settled
  simp only [Settled, hphase] at hsettled
  have hnone : m.queued ++ m.phase.held = [] := by
    simp [queued, hq, hphase, Phase.held, Entry.done, hsettled.1.2 rfl]
  have hmem : o ∈ m.pending := by
    have hcount := hw.tended.count o
    dsimp only at hcount
    rwa [← Multiset.count_pos, hcount]
  have hawaiting : m.pending = m.awaiting := by
    obtain ⟨hqueued, hheld⟩ := List.append_eq_nil_iff.mp hnone
    simp [pending, operations, stock, hqueued, hphase, Phase.wanted, Phase.held]
  rw [hawaiting, mem_awaiting] at hmem
  obtain ⟨d, hd, hj⟩ := hmem
  refine ⟨hnone, d, ⟨hd, fun request hr => ?_⟩, hj⟩
  rw [hphase] at hr
  cases hr

/-- The server does not sleep over work. When its thread is about to wait in epoll with nothing
in the queue and nothing for epoll to report, every connection that is not through waits at its
own socket, in the queue of the type of its operation, for a call that would block now: none has
sent anything that is not read, for a read, and none has room for an answer, for a write, unless
a send on this socket has failed before. And no client waits to be accepted, unless the last
one went away before it was. -/
theorem never_sleeps_over_work {m : Scheduler D ServerOp (Result D) (ServerState D)} {k : Kernel D}
    (h : Agents.Schedule (SystemStep (serverProgram mConfig incoming acceptor) Answer.Lasting)
      labels (serverMain fs acceptor, {}) (m, k))
    (hphase : m.phase = .idle) (hq : m.opQueue = [.task]) (hlist : k.readyList = []) :
    (k.ready acceptor .read = false ∨ k.stale acceptor .read = true) ∧
      ∀ i x op, m.state.srv.connections i = some x → x.conn.pending = some op →
        ∃ d, m.state.sockets i = some d ∧ .transfer i ∈ (m.descriptors d).opQueue op.opType ∧
          (k.ready d op.opType = false ∨ op.opType = .write ∧ k.stale d .write = true) := by
  have hv : Vigilant acceptor (m, k) :=
    h.keeps (fun _ _ _ _ hx hs => hx.step hs) (main_vigilant fs acceptor)
  have hcreated : 0 < m.state.created := hv.atWork.tended.positive
  refine ⟨?_, fun i x op hx hop => ?_⟩
  · have hdue : 0 < m.state.due (.accept (m.state.created - 1)) := by
      rw [ServerState.due, if_pos (by omega)]
      exact Nat.one_pos
    obtain ⟨_, d, _, j, ho⟩ := hv.waits hphase hq hdue
    obtain ⟨rfl, rfl⟩ := hv.seated.waiting d j _ ho
    exact hv.awake.asleep hphase hq hlist ho
  · have hactive : x.active = true := by simp [AsioSession.active, hop]
    have hdue : 0 < m.state.due (.transfer i) := by
      simp [ServerState.due, ServerState.active, hx, hactive]
    obtain ⟨hnone, d, hd, j, ho⟩ := hv.waits hphase hq hdue
    obtain ⟨hsocket, x', op', hx', hop', rfl, _⟩ := hv.seated.waiting d j _ ho
    obtain rfl : x' = x := Option.some.inj (hx'.symm.trans hx)
    obtain rfl : op' = op := Option.some.inj (hop'.symm.trans hop)
    refine ⟨d, hsocket, ho, (hv.awake.asleep hphase hq hlist ho).imp_right fun hstale => ?_⟩
    cases htype : op'.opType with
    | write => exact ⟨rfl, htype ▸ hstale⟩
    | read =>
      rw [htype] at hstale
      obtain ⟨results, hmem, _⟩ := hv.sighted d hd (.inr hstale) i x' hsocket hx hactive
      rw [show m.queued ++ m.phase.held = [] from hnone] at hmem
      cases hmem

/-- What a lasting answer is to a send. -/
theorem nonBlockingSend1_of_lasting (h : nonBlockingRecv1 results = some (.done true 0)) :
    nonBlockingSend1 results = some (.done true 0) ∨
      nonBlockingSend1 results = some (.done false 0) := by
  induction results with
  | nil => cases h
  | cons result results ih =>
    cases result with
    | bytes n =>
      cases n with
      | zero => exact .inr rfl
      | succ n => cases h
    | interrupted => exact ih h
    | wouldBlock => cases h
    | failed => exact .inl rfl

theorem AsioSession.attempt_write {x : AsioSession} (hop : x.conn.pending = some op)
    (htype : op.opType = .write) (hsize : x.buffers.prepare x.maxSize ≠ 0)
    (h : x.attempt results = some got) (hl : nonBlockingRecv1 results = some (.done true 0)) :
    nonBlockingSend1 results = some (.done true 0) ∧ got = .doneAndExhausted results := by
  cases op with
  | readPreRequestHeader | readRequestHeader | readRequestContent => cases htype
  | sendResponse outcome next =>
    have hstatus : x.status results = nonBlockingSend1 results := by
      rw [status, if_neg hsize, hop]
    rw [AsioSession.attempt, hop, hstatus] at h
    rcases nonBlockingSend1_of_lasting hl with hsend | hsend
    · rw [hsend] at h
      refine ⟨hsend, ?_⟩
      simp only [Nat.zero_le, Bool.true_eq_false, false_implies, and_self, if_true,
        Option.some.injEq] at h
      rw [if_pos (Nat.pos_of_ne_zero hsize)] at h
      exact h.symm
    · rw [hsend] at h
      simp at h

theorem nonBlockingAccept_ne {D : Type} (results : List (AcceptResult D)) (r : Option D) :
    nonBlockingAccept results ≠ some (.doneAndExhausted r) := by
  induction results with
  | nil => simp [nonBlockingAccept]
  | cons result results ih => cases result <;> simp [nonBlockingAccept, ih]

/-- The operation whose call is made has its place there. -/
theorem Seated.tried {m m' : Scheduler D ServerOp (Result D) (ServerState D)}
    (h : Seated acceptor m) (hw : AtWork acceptor m) (ht : Tidy m)
    (hs : Step (serverProgram mConfig incoming acceptor) (.perform d j a attempt) m m') :
    m.Held d ∧ ∃ o, m.state.Place acceptor d j o ∧
      (serverProgram mConfig incoming acceptor).perform m.state o a = some attempt := by
  cases hs.change d with
  | same _ hne => exact absurd rfl (hne _ _ _)
  | waits _ _ _ _ _ hcall => rcases hcall with hcall | hcall <;> cases hcall
  | tries o _ _ htries hp =>
    rcases htries with ⟨hstarts, hd⟩ | ⟨ho, hrequests⟩
    · exact ⟨ht.held hd hstarts, o, h.starting _ _ _ hstarts.starting, hp⟩
    · refine ⟨⟨hw.registered ho, fun request hr => ?_⟩, o, h.waiting _ _ _ ho, hp⟩
      rw [hrequests] at hr
      cases hr

section Stale
variable {m : Scheduler D ServerOp (Result D) (ServerState D)} {k : Kernel D}

/-- The call of the server that has gone stale, with the operation that it was made for. -/
theorem stale_call
    (h : Agents.Schedule (SystemStep (serverProgram mConfig incoming acceptor) Answer.Lasting)
      labels (serverMain fs acceptor, {}) (m, k)) (hs : k.stale d j = true) :
    ∃ before a attempt after,
      labels = before ++ some (.perform d j a attempt) :: after ∧ some (.add d) ∉ after ∧
        a.Lasting ∧ (∀ r, attempt ≠ .done r) ∧
        ∃ (u : Scheduler D ServerOp (Result D) (ServerState D)) (o : ServerOp),
          AtWork acceptor u ∧ u.Held d ∧ u.state.Place acceptor d j o ∧
          (serverProgram mConfig incoming acceptor).perform u.state o a = some attempt := by
  rcases stale_of_run h hs with ⟨hstart, _⟩ | ⟨before, a, attempt, after, u, v, hlabels,
    hbefore, hstep, hadd, hlasting, hdone⟩
  · cases hstart
  · have hv : Vigilant acceptor u :=
      hbefore.keeps (fun _ _ _ _ hx hs => hx.step hs) (main_vigilant fs acceptor)
    have ht : Tidy u.1 := by
      refine hbefore.keeps (P := fun x => Tidy x.1) ?_ (main_tidy fs acceptor)
      intro _ _ _ _ hx hs
      cases hs with
      | call hs => exact Tidy.step hx hs
      | happens => exact hx
    obtain ⟨hd, o, hplace, hp⟩ := hv.seated.tried hv.atWork ht hstep
    exact ⟨before, a, attempt, after, hlabels, hadd, hlasting, hdone, u.1, o, hv.atWork, hd,
      hplace, hp⟩

/-- Asio waits in vain for an event only behind an accept that came back for a client that was
gone, at the acceptor, and behind a send that has failed, where it waits to write. -/
theorem stale_only_behind
    (h : Agents.Schedule (SystemStep (serverProgram mConfig incoming acceptor) Answer.Lasting)
      labels (serverMain fs acceptor, {}) (m, k)) :
    (k.stale acceptor .read = true → ∃ before results after,
      labels = before ++ some (.perform acceptor .read (.accept results) .notDone) :: after ∧
        some (.add acceptor) ∉ after ∧ .aborted ∈ results) ∧
    ∀ d, k.stale d .write = true → ∃ before results after,
      labels = before ++ some (.perform d .write (.transfer results)
          (.doneAndExhausted (.transferred results))) :: after ∧
        some (.add d) ∉ after ∧ nonBlockingSend1 results = some (.done true 0) := by
  refine ⟨fun hs => ?_, fun d hs => ?_⟩
  · obtain ⟨before, a, attempt, after, hlabels, hadd, hlasting, hdone, u, o, hw, hd, hplace, hp⟩ :=
      stale_call h hs
    cases o with
    | transfer i =>
      obtain ⟨hsocket, x, op, hx, hop, _⟩ := hplace
      have hi : u.state.active i = true := by
        simp [ServerState.active, AsioSession.active, hx, hop]
      exact absurd rfl (hw.socket_unique hd hi hsocket).1
    | accept n =>
      cases a with
      | transfer results => cases hp
      | accept results =>
        obtain ⟨got, hgot, rfl⟩ := Option.map_eq_some_iff.mp hp
        cases got with
        | notDone => exact ⟨before, results, after, hlabels, hadd, hlasting⟩
        | done r => exact absurd rfl (hdone _)
        | doneAndExhausted r => exact absurd hgot (nonBlockingAccept_ne results r)
  · obtain ⟨before, a, attempt, after, hlabels, hadd, hlasting, hdone, u, o, hw, hd, hplace, hp⟩ :=
      stale_call h hs
    cases o with
    | accept n => cases hplace.2
    | transfer i =>
      obtain ⟨_, x, op, hx, hop, htype, hsize⟩ := hplace
      cases a with
      | accept results => cases hp
      | transfer results =>
        obtain ⟨got, hgot, rfl⟩ := ServerState.perform_transfer hx hp
        obtain ⟨hsend, rfl⟩ := AsioSession.attempt_write hop htype hsize hgot hlasting
        exact ⟨before, results, after, hlabels, hadd, hsend⟩

end Stale

/-- A client is there before the loop is entered, and sends nothing. -/
def quietClient : List (Option (Call Nat (Answer Nat) (Result Nat))) :=
  [some (.add 0), some (.perform 0 .read (.accept [.socket 5]) (.done (.accepted (some 5)))),
    some .none, some (.wait false []), some .none, some (.add 5),
    some (.perform 5 .read (.transfer [.wouldBlock]) .notDone), some .none,
    some (.perform 0 .read (.accept [.wouldBlock]) .notDone), some .none, some .none]

/-- The server has nothing to do but to wait. -/
structure Idle (x : Scheduler Nat ServerOp (Result Nat) (ServerState Nat) × Kernel Nat) : Prop where
  phase : x.1.phase = .idle
  stopped : x.1.stopped = false
  opQueue : x.1.opQueue = [.task]
  readyList : x.2.readyList = []

/-- It waits for the quiet client. -/
structure QuietClient (x : Scheduler Nat ServerOp (Result Nat) (ServerState Nat) × Kernel Nat) :
    Prop extends Idle x where
  connection : x.1.state.srv.connections 0 = some (.accepted {} [])
  waiting : (x.1.descriptors 5).opQueue .read = [.transfer 0]
  privateWork : x.1.privateOpQueue = [] ∧ x.1.privateOutstandingWork = 0
  interest : x.2.interest 5 .read = true ∧ x.2.interest 5 .write = false
  stale : x.2.stale 5 .read = false

theorem quietClient_run : ∃ x, Agents.Schedule
    (SystemStep (serverProgram {} (fun _ => []) 0) Answer.Lasting) quietClient
      (serverMain (outDirectory []) 0, {}) x ∧ QuietClient x := by
  have hadd : ∀ (k : Kernel Nat) d now, Kernel.Serves Answer.Lasting
      (.add d : Call Nat (Answer Nat) (Result Nat)) k (k.add d now) := fun _ _ _ => .add
  have hdone : ∀ k : Kernel Nat, k.ready 0 .read = true → Kernel.Serves Answer.Lasting
      (.perform 0 .read (.accept [.socket 5]) (.done (.accepted (some 5))) :
        Call Nat (Answer Nat) (Result Nat)) k (k.setReady 0 .read false) := fun _ h => .done h
  have hblocked : ∀ d j, (((({} : Kernel Nat).add 0 fun j => j = .read).setReady 0 .read
      false).ready d j) = false := by
    intro d j
    by_cases hd : d = 0
    · subst hd
      cases j <;> rfl
    · simp [Kernel.add, hd]
  have hnotDone : ∀ (k : Kernel Nat) d a, Kernel.Serves Answer.Lasting
      (.perform d .read a .notDone : Call Nat (Answer Nat) (Result Nat)) k
        ((k.setReady d .read false).setStale d .read false) := fun _ _ _ => .notDone (by simp)
  refine Agents.exists_cons
    (.call (.registerDescriptor rfl (by decide)) (hadd _ 0 fun j => j = .read)) ?_
  refine Agents.exists_cons (.call (.immediate rfl (by decide) rfl rfl rfl) (hdone _ rfl)) ?_
  refine Agents.exists_cons (.call (.run rfl (by decide)) .none) ?_
  refine Agents.exists_cons
    (.call (.wait rfl rfl rfl rfl) (.wait (n := 128) (.inl (le_refl _)) ?_)) ?_
  · intro d _ j _ hready
    rw [hblocked] at hready
    cases hready
  refine Agents.exists_cons (.call (.complete rfl rfl rfl rfl) .none) ?_
  refine Agents.exists_cons
    (.call (.registerDescriptor rfl (by decide)) (hadd _ 5 fun _ => false)) ?_
  refine Agents.exists_cons (.call (.tried rfl (by decide) rfl rfl rfl) (hnotDone _ _ _)) ?_
  refine Agents.exists_cons (.call (.enqueue rfl (by simp)) .none) ?_
  refine Agents.exists_cons (.call (.tried rfl (by decide) rfl rfl rfl) (hnotDone _ _ _)) ?_
  refine Agents.exists_cons (.call (.enqueue rfl (by simp)) .none) ?_
  refine Agents.exists_cons (.call (.workCleanup rfl) .none) ?_
  exact ⟨_, .nil, ⟨rfl, rfl, rfl, rfl⟩, rfl, rfl, ⟨rfl, rfl⟩, ⟨rfl, rfl⟩, rfl⟩

theorem never_sleeps_over_work_sample :
    ∃ (m : Scheduler Nat ServerOp (Result Nat) (ServerState Nat)) (k : Kernel Nat) (d : Nat),
      m.state.sockets 0 = some d ∧ k.ready d .read = false := by
  obtain ⟨⟨m, k⟩, h, hquiet⟩ := quietClient_run
  obtain ⟨_, hconnections⟩ := never_sleeps_over_work h hquiet.phase hquiet.opQueue hquiet.readyList
  obtain ⟨d, hd, _, hready⟩ := hconnections 0 _ .readPreRequestHeader hquiet.connection rfl
  exact ⟨m, k, d, hd, hready.resolve_right (by simp [AsyncOp.opType])⟩

end Sleep

end Horcrux
