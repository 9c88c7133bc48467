import Horcrux.IoContext
import Horcrux.Lib.Agents
import Horcrux.Proofs.Chain
import Horcrux.Proofs.Storing
import Mathlib.Tactic.Abel

namespace Horcrux
open SharedPtr

namespace Handler

theorem mem_captures {h : Handler} : p ∈ h.captures ↔ p = h.connection := by
  cases h with
  | accept newConnection => simp [captures, connection]
  | completion op self => cases op <;> simp [captures, connection]

/-- The handler of the operation that the connection waits for, if it waits for one. -/
def ofPending (pending : Option AsyncOp) (self : Nat) : Multiset Handler :=
  (pending.toList.map fun op => .completion op self : List Handler)

@[simp] theorem ofPending_none (self : Nat) : ofPending none self = 0 := rfl

@[simp] theorem ofPending_some (op : AsyncOp) (self : Nat) :
    ofPending (some op) self = {.completion op self} := rfl

theorem mem_ofPending : x ∈ ofPending pending self ↔
    ∃ op, pending = some op ∧ x = .completion op self := by
  cases pending <;> simp

def accepts : Handler → Bool
  | .accept _ => true
  | .completion _ _ => false

end Handler

@[simp] theorem countP_ofPending (pending : Option AsyncOp) (self : Nat) :
    (Handler.ofPending pending self).countP (fun h => h.accepts = true) = 0 := by
  cases pending <;> rfl

@[simp] theorem map_ofPending (pending : Option AsyncOp) (self : Nat) :
    (Handler.ofPending pending self).map Handler.connection = pending.toList.map fun _ => self := by
  cases pending <;> rfl

/-- The pointers that are captured in some handlers. -/
def captured (handlers : Multiset Handler) : Multiset Nat := handlers.bind fun h => h.captures

theorem captured_cons (h : Handler) (handlers : Multiset Handler) :
    captured (h ::ₘ handlers) = h.captures + captured handlers := Multiset.cons_bind _ _ _

@[simp] theorem captured_accept (p : Nat) (handlers : Multiset Handler) :
    captured (.accept p ::ₘ handlers) = p ::ₘ captured handlers :=
  (captured_cons _ _).trans (Multiset.singleton_add _ _)

@[simp] theorem captured_add (hs hs' : Multiset Handler) :
    captured (hs + hs') = captured hs + captured hs' := Multiset.add_bind _ _ _

theorem mem_captured {handlers : Multiset Handler} :
    p ∈ captured handlers ↔ p ∈ handlers.map Handler.connection := by
  simp [captured, Multiset.mem_bind, Handler.mem_captures, eq_comm]

/-- The calls that a connection has had: that of its accept, and those of the operations that
it has started and no longer waits for. -/
def TcpConnection.calls (c : TcpConnection) : Nat :=
  c.trace.length - c.trace.count .saved + if c.pending = none then 1 else 0

theorem complete_calls (h : Session.complete s io fs = .next (s', fs')) :
    s'.conn.calls = s.conn.calls + 1 := by
  have hp : s.conn.pending ≠ none := by
    intro hp
    cases (Session.complete_none hp io fs).symm.trans h
  have hle := s.conn.trace.count_le_length (a := .saved)
  unfold TcpConnection.calls
  rw [if_neg hp]
  rcases complete_cases h with ⟨ht, hn, _⟩ | ⟨op, ht, hn, _⟩ | ⟨ht, hn, _⟩
  · rw [ht, if_pos hn]
  · rw [ht, hn, List.length_append, List.count_append]
    simp
    omega
  · rw [ht, if_pos hn, List.length_append, List.count_append]
    simp

theorem TcpConnection.calls_le {c : TcpConnection} (ht : c.trace = events) :
    c.calls ≤ events.length + 1 := by
  subst ht
  unfold calls
  split <;> omega

theorem TcpConnection.calls_le_of_pending {c : TcpConnection} (ht : c.trace = events)
    (hp : c.pending = some op) : c.calls ≤ events.length := by
  subst ht
  simp [calls, hp]

/-- What the situations come to, for a connection with `k` of `n` horcruxes. -/
theorem Situation.calls_le (h : Situation mConfig stream s) :
    s.conn.calls ≤ max 5 (3 * mConfig.mMaxNumHorcruxAccepted.toNat + 3) := by
  have hlength : ∀ k, (receivedTrace k).length = 3 * k + 2 := fun k => (count_received k).2.2.2
  cases h with
  | fresh => exact le_max_of_le_left (show 1 ≤ 5 by decide)
  | lost hs hp ht => exact le_max_of_le_left ((TcpConnection.calls_le ht).trans (by decide))
  | refused pre hx hs hp ht =>
    exact le_max_of_le_left ((TcpConnection.calls_le ht).trans (by decide))
  | answering u hr hn hx hp ht =>
    have hle := u.length_le
    have hnum : u.count ≤ _ := u.number
    refine (TcpConnection.calls_le_of_pending ht hp).trans ?_
    rw [hlength]
    omega
  | listening u hr hn hx hp ht =>
    have hle := u.length_le
    have hnum : u.count ≤ _ := u.number
    refine (TcpConnection.calls_le_of_pending ht hp).trans ?_
    rw [List.length_append, hlength, List.length_singleton]
    omega
  | reading u header hr ha hx hh hb hp ht =>
    have hlt := ha.length_lt
    have hnum : u.count ≤ _ := u.number
    refine (TcpConnection.calls_le_of_pending ht hp).trans ?_
    simp only [List.length_append, hlength, List.length_cons, List.length_nil]
    omega
  | cut u hr hn hp hx ht =>
    have hlt := length_lt_of_not_complete hn
    have hnum : u.count ≤ _ := u.number
    rcases ht with ht | ht <;> refine (TcpConnection.calls_le ht).trans ?_ <;>
      simp only [List.length_append, hlength, List.length_cons, List.length_nil] <;> omega
  | rejected u header hr hn ha hx hp ht =>
    have hlt := length_lt_of_not_complete hn
    have hnum : u.count ≤ _ := u.number
    refine (TcpConnection.calls_le ht).trans ?_
    simp only [List.length_append, hlength, List.length_cons, List.length_nil]
    omega
  | complete u hr hc hx hp ht =>
    have hpos := hc.2
    have hnum : u.count ≤ _ := u.number
    refine (TcpConnection.calls_le_of_pending ht hp).trans ?_
    simp only [completeTrace, List.length_append, hlength, List.length_cons, List.length_nil]
    omega
  | saved u hr hc hx hp ht =>
    -- the last event is no operation
    have hpos := hc.2
    have hnum : u.count ≤ _ := u.number
    have hsaved := List.count_pos_iff.mpr (List.mem_append_right (completeTrace (u.count - 1))
      (List.mem_singleton_self Event.saved))
    simp only [TcpConnection.calls, ht, if_pos hp]
    simp only [List.length_append, completeTrace, hlength, List.length_cons, List.length_nil]
      at hsaved ⊢
    omega

namespace IoContext
variable {m m' : IoContext} {refs : Multiset Nat} {mConfig : Config} {incoming : Nat → Bytes}
  {s s' : Session} {fs fs' : FileSystem} {io : Io}

theorem pointers_eq (m : IoContext) : m.pointers = captured m.handlers := rfl

theorem start_spec (h : m.heap.Counted refs) (hp : self ∈ refs) (op : AsyncOp) :
    ∃ heap, m.start self op =
        { m with heap := heap, handlers := .completion op self ::ₘ m.handlers } ∧
      heap.Counted ((Handler.completion op self).captures + refs) ∧
      heap.object = m.heap.object := by
  have hcopy := (h.copy hp).copies (Handler.completion op self).captures fun q hq => by
    rw [Handler.mem_captures.mp hq]
    exact Multiset.mem_cons_self _ _
  rw [Multiset.add_cons] at hcopy
  refine ⟨_, rfl, hcopy.drop, funext fun q => ?_⟩
  by_cases hq : q ∈ refs
  · have hkept := hcopy.object_drop (Multiset.mem_add.mpr (.inr hq))
    rwa [Heap.object_copies] at hkept
  · rw [h.object_eq_none hq]
    refine hcopy.drop.object_eq_none fun hmem => ?_
    rcases Multiset.mem_add.mp hmem with hcap | hrefs
    · exact hq (Handler.mem_captures.mp hcap ▸ hp)
    · exact hq hrefs

theorem startAccept_spec (h : m.heap.Counted refs) (hp : m.created ∉ refs) (mConfig : Config) :
    ∃ heap, m.startAccept mConfig =
        { m with
          heap := heap
          handlers := .accept m.created ::ₘ m.handlers
          created := m.created + 1 } ∧
      heap.Counted (m.created ::ₘ refs) ∧
      heap.object =
        Function.update m.heap.object m.created (some ⟨.unstarted mConfig, []⟩) := by
  have hmade := h.make hp (⟨.unstarted mConfig, []⟩ : Session)
  have hcopy := hmade.copy (Multiset.mem_cons_self m.created refs)
  refine ⟨_, rfl, hcopy.drop, funext fun q => ?_⟩
  by_cases hq : q ∈ m.created ::ₘ refs
  · exact hcopy.object_drop hq
  · refine (hcopy.drop.object_eq_none hq).trans ?_
    rw [Multiset.mem_cons, not_or] at hq
    rw [Function.update_of_ne hq.1, h.object_eq_none hq.2]

theorem member_spec (before after : Session) (h : m.heap.Counted refs) (hp : self ∈ refs)
    (hs : after.conn.startedSince before.conn = after.conn.pending.toList) :
    ∃ heap, m.member self before after =
        { m with
          heap := heap
          handlers := Handler.ofPending after.conn.pending self + m.handlers } ∧
      heap.Counted (captured (Handler.ofPending after.conn.pending self) + refs) ∧
      heap.object = Function.update m.heap.object self (some after) := by
  have hwrite := h.write hp after
  rw [member, hs]
  cases after.conn.pending with
  | none => exact ⟨m.heap.write self after, by simp, by simpa [captured] using hwrite, rfl⟩
  | some op =>
    obtain ⟨heap, heq, hc, ho⟩ :=
      start_spec (m := { m with heap := m.heap.write self after }) hwrite hp op
    exact ⟨heap, by simpa using heq, by simpa [captured] using hc, ho⟩

/-- What a handler starts is what it leaves pending. -/
theorem complete_startedSince (h : s.complete io fs = .next (s', fs')) :
    s'.conn.startedSince s.conn = s'.conn.pending.toList := by
  rcases complete_cases h with ⟨ht, hp, _⟩ | ⟨op, ht, hp, _⟩ | ⟨ht, hp, _⟩ <;>
    simp [TcpConnection.startedSince, ht, hp]

theorem completeOp_eq (hp : s.conn.pending = some op) (io : Io) (fs : FileSystem) :
    s.completeOp op io fs = s.complete io fs := by
  rw [Session.completeOp, ← hp]

/-- A handler of a connection that is still there, and for the operation that it waits for. -/
theorem invoke_completion
    (hc : m.heap.Counted ((Handler.completion op self).captures + captured m.handlers))
    (ho : m.heap.object self = some s) (hp : s.conn.pending = some op)
    (h : m.invoke mConfig incoming (.completion op self) io = .next m') :
    ∃ s' fs' heap, s.complete io m.fs = .next (s', fs') ∧
      m' =
        { m with
          fs := fs'
          heap := heap
          handlers := Handler.ofPending s'.conn.pending self + m.handlers } ∧
      heap.Counted (captured m'.handlers) ∧
      ∀ q ∈ captured m'.handlers,
        heap.object q = Function.update m.heap.object self (some s') q := by
  have hself : self ∈
      ((Handler.completion op self).captures : Multiset Nat) + captured m.handlers :=
    Multiset.mem_add.mpr (.inl (Handler.mem_captures.mpr rfl))
  simp only [invoke, ho, completeOp_eq hp] at h
  split at h
  · cases h
  · cases h
  · rename_i s' fs' hcomplete
    obtain ⟨heap, heq, hcount, hobject⟩ := member_spec (m := { m with fs := fs' }) s s' hc hself
      (complete_startedSince hcomplete)
    rw [add_left_comm] at hcount
    cases h
    refine ⟨s', fs', _, hcomplete, by rw [heq, destroy], ?_, fun q hq => ?_⟩
    · simpa [heq, destroy] using hcount.drops
    · simp only [heq, destroy, captured_add] at hq
      rw [hcount.object_drops hq, hobject]

/-- What is left to do after the new connection may have been started: the acceptor waits for
the next client, and the pointers of the handler go. -/
def accepted (m : IoContext) (mConfig : Config) (newConnection : Nat) : IoContext :=
  ({ m.startAccept mConfig with
    heap := (m.startAccept mConfig).heap.drop newConnection } : IoContext).destroy
      (.accept newConnection)

theorem accepted_spec (h : m.heap.Counted (p ::ₘ p ::ₘ refs)) (hn : m.created ∉ p ::ₘ refs)
    (mConfig : Config) :
    ∃ heap, m.accepted mConfig p =
        { m with
          heap := heap
          handlers := .accept m.created ::ₘ m.handlers
          created := m.created + 1 } ∧
      heap.Counted (m.created ::ₘ refs) ∧
      ∀ q ∈ m.created ::ₘ refs, heap.object q =
        Function.update m.heap.object m.created (some ⟨.unstarted mConfig, []⟩) q := by
  have hn' : m.created ∉ p ::ₘ p ::ₘ refs := by simpa [Multiset.mem_cons] using hn
  obtain ⟨heap, heq, hcount, hobject⟩ := startAccept_spec h hn' mConfig
  rw [Multiset.cons_swap] at hcount
  have hdrop := hcount.drop
  rw [Multiset.cons_swap] at hdrop
  refine ⟨(heap.drop p).drop p, by rw [accepted, heq]; rfl, hdrop.drop, fun q hq => ?_⟩
  have hq' : q ∈ m.created ::ₘ p ::ₘ refs := by
    rw [Multiset.cons_swap]
    exact Multiset.mem_cons_of_mem hq
  rw [hdrop.object_drop hq, hcount.object_drop hq', hobject]

theorem invoke_accept_ok (ho : m.heap.object p = some s)
    (hm : IoContext.member { m with heap := m.heap.copy p } p s
      ⟨s.conn.readPreRequestHeader, incoming p⟩ = m') :
    m.invoke mConfig incoming (.accept p) .ok = .next (m'.accepted mConfig p) := by
  have ho' : (m.heap.copy p).object p = some s := ho
  simp [invoke, handleAccept, startConnection, ho', hm, Outcome.ofOption, accepted]

theorem invoke_accept_error (m : IoContext) (p k : Nat) :
    m.invoke mConfig incoming (.accept p) (.error k) =
      .next (IoContext.accepted { m with heap := m.heap.copy p } mConfig p) := rfl

/-- The acceptor goes on with a new connection, whatever has become of the last one. -/
theorem invoke_accept (hc : m.heap.Counted (p ::ₘ captured m.handlers))
    (ho : m.heap.object p = some ⟨.unstarted mConfig, []⟩)
    (hn : m.created ∉ p ::ₘ captured m.handlers)
    (h : m.invoke mConfig incoming (.accept p) io = .next m') :
    ∃ heap started, m' =
        { m with
          heap := heap
          handlers := Handler.ofPending started p + .accept m.created ::ₘ m.handlers
          created := m.created + 1 } ∧
      heap.Counted (captured m'.handlers) ∧
      ((started = some .readPreRequestHeader ∧ ∀ q ∈ captured m'.handlers,
          heap.object q = Function.update (Function.update m.heap.object p
            (some (.accepted mConfig (incoming p)))) m.created
              (some ⟨.unstarted mConfig, []⟩) q) ∨
        (started = none ∧ ∀ q ∈ captured m'.handlers, heap.object q =
          Function.update m.heap.object m.created (some ⟨.unstarted mConfig, []⟩) q)) := by
  have hcopy := hc.copy (Multiset.mem_cons_self p _)
  cases io with
  | ok =>
    -- the connection starts, and its first handler has a pointer of its own
    obtain ⟨heap₁, heq₁, hcount₁, hobject₁⟩ := member_spec
      (m := { m with heap := m.heap.copy p }) ⟨.unstarted mConfig, []⟩
      (.accepted mConfig (incoming p)) hcopy (Multiset.mem_cons_self p _) rfl
    have hpointers : captured (Handler.ofPending (some .readPreRequestHeader) p) +
        p ::ₘ p ::ₘ captured m.handlers = p ::ₘ p ::ₘ p ::ₘ captured m.handlers := rfl
    have hn' : m.created ∉ p ::ₘ p ::ₘ captured m.handlers := by
      simpa [Multiset.mem_cons] using hn
    obtain ⟨heap, heq, hcount, hobject⟩ := accepted_spec
      (m := { m with heap := heap₁, handlers :=
        Handler.ofPending (some .readPreRequestHeader) p + m.handlers })
      (hpointers ▸ hcount₁) hn' mConfig
    rw [invoke_accept_ok ho heq₁] at h
    have hm' : m' = _ := (Outcome.next.inj h).symm.trans heq
    subst hm'
    have hcaptured : captured (.accept m.created ::ₘ
        (Handler.ofPending (some .readPreRequestHeader) p + m.handlers)) =
        m.created ::ₘ p ::ₘ captured m.handlers := by
      rw [captured_accept, captured_add]
      rfl
    rw [hobject₁] at hobject
    refine ⟨heap, some .readPreRequestHeader, ?_, hcaptured ▸ hcount, .inl ⟨rfl, ?_⟩⟩
    · rw [Multiset.add_cons]
    · exact hcaptured ▸ hobject
  | error k =>
    obtain ⟨heap, heq, hcount, hobject⟩ :=
      accepted_spec (m := { m with heap := m.heap.copy p }) hcopy hn mConfig
    rw [invoke_accept_error] at h
    have hm' : m' = _ := (Outcome.next.inj h).symm.trans heq
    subst hm'
    rw [← captured_accept] at hcount hobject
    exact ⟨heap, none, by simp, hcount, .inr ⟨rfl, hobject⟩⟩

/-- What a handler can rely on when it is called: its connection has not been touched since
it was made, or it waits for the operation of the handler. -/
def Served (mConfig : Config) (m : IoContext) (t : TcpServer Nat) : Handler → Prop
  | .accept p => m.heap.object p = some ⟨.unstarted mConfig, []⟩ ∧ t.connections p = none
  | .completion op p => ∃ s, m.heap.object p = some s ∧ t.connections p = some s ∧
      s.conn.pending = some op

theorem Served.congr (h : Served mConfig m t x) (ho : m'.heap.object x.connection =
      m.heap.object x.connection) (ht : t'.connections x.connection = t.connections x.connection) :
    Served mConfig m' t' x := by
  cases x with
  | accept p => exact ⟨ho.trans h.1, ht.trans h.2⟩
  | completion op p =>
    obtain ⟨s, hs, hts, hp⟩ := h
    exact ⟨s, ho.trans hs, ht.trans hts, hp⟩

/-- The memory of a server that does what `t` does. Each connection has one handler, as long
as it waits for something, and with it goes the object; one more waits for a client. -/
structure Owned (mConfig : Config) (m : IoContext) (t : TcpServer Nat) : Prop where
  fs : t.fs = m.fs
  counted : m.heap.Counted m.pointers
  single : (m.handlers.map Handler.connection).Nodup
  acceptor : m.handlers.countP (fun h => h.accepts = true) = 1
  latest : ∀ p, .accept p ∈ m.handlers → p + 1 = m.created
  served : ∀ h ∈ m.handlers, Served mConfig m t h
  ended : ∀ p s, t.connections p = some s → p ∉ m.handlers.map Handler.connection →
    s.conn.pending = none
  fresh : ∀ p, m.created ≤ p → p ∉ m.handlers.map Handler.connection ∧ t.connections p = none

theorem owned_listening (mConfig : Config) (fs : FileSystem) :
    Owned mConfig (listening mConfig fs) (.listening fs) := by
  obtain ⟨heap, heq, hcount, hobject⟩ := startAccept_spec (m := { fs := fs })
    Heap.counted_empty (Multiset.notMem_zero 0) mConfig
  rw [listening, heq]
  constructor
  · rfl
  · rw [pointers_eq, captured_accept]
    exact hcount
  · exact Multiset.nodup_singleton _
  · rfl
  · intro p hm
    cases Multiset.mem_singleton.mp hm
    rfl
  · intro h hm
    obtain rfl := Multiset.mem_singleton.mp hm
    exact ⟨by simp [hobject], rfl⟩
  · intro p s hs
    cases hs
  · intro p hp
    refine ⟨fun hm => ?_, rfl⟩
    obtain rfl := Multiset.mem_singleton.mp hm
    cases hp

theorem Owned.take (h : Owned mConfig m t) (hh : m.handlers = x ::ₘ rest) :
    m.heap.Counted (x.captures + captured rest) ∧ x.connection ∉ rest.map Handler.connection ∧
      Served mConfig m t x := by
  have hc := h.counted
  have hs := h.single
  rw [pointers_eq, hh, captured_cons] at hc
  rw [hh, Multiset.map_cons, Multiset.nodup_cons] at hs
  exact ⟨hc, hs.1, h.served x (hh ▸ Multiset.mem_cons_self _ _)⟩

/-- The handler of `p` has run and has started what is in `pending`; the handlers of `rest`
wait as well. -/
theorem owned_of_rest {rest : Multiset Handler} (hfs : t.fs = m.fs)
    (hcount : m.heap.Counted (captured m.handlers))
    (hh : m.handlers = Handler.ofPending pending p + rest)
    (hn : (rest.map Handler.connection).Nodup) (hp : p ∉ rest.map Handler.connection)
    (hone : rest.countP (fun h => h.accepts = true) = 1)
    (hlatest : ∀ q, .accept q ∈ rest → q + 1 = m.created)
    (hrest : ∀ x ∈ rest, Served mConfig m t x)
    (hpending : ∀ op, pending = some op → Served mConfig m t (.completion op p))
    (hended : ∀ q s, t.connections q = some s → q ∉ rest.map Handler.connection →
      (q = p → pending = none) → s.conn.pending = none)
    (hfresh : ∀ q, m.created ≤ q →
      q ≠ p ∧ q ∉ rest.map Handler.connection ∧ t.connections q = none) :
    Owned mConfig m t := by
  have hconnections : ∀ q, q ∈ m.handlers.map Handler.connection ↔
      (q = p ∧ pending ≠ none) ∨ q ∈ rest.map Handler.connection := by
    intro q
    rw [hh, Multiset.map_add, map_ofPending, Multiset.mem_add]
    cases pending <;> simp
  refine ⟨hfs, hcount, ?_, ?_, ?_, ?_, ?_, ?_⟩
  · rw [hh, Multiset.map_add, map_ofPending]
    cases pending with
    | none => simpa using hn
    | some op => exact Multiset.nodup_cons.mpr ⟨hp, hn⟩
  · rw [hh, Multiset.countP_add, countP_ofPending, hone]
  · intro q hq
    rw [hh, Multiset.mem_add] at hq
    rcases hq with hq | hq
    · obtain ⟨op, _, he⟩ := Handler.mem_ofPending.mp hq
      cases he
    · exact hlatest q hq
  · intro x hx
    rw [hh, Multiset.mem_add] at hx
    rcases hx with hx | hx
    · obtain ⟨op, hop, rfl⟩ := Handler.mem_ofPending.mp hx
      exact hpending op hop
    · exact hrest x hx
  · intro q s hq hnot
    rw [hconnections, not_or, not_and, not_not] at hnot
    exact hended q s hq hnot.2 hnot.1
  · intro q hq
    obtain ⟨hne, hnot, hnone⟩ := hfresh q hq
    rw [hconnections, not_or]
    exact ⟨⟨fun he => hne he.1, hnot⟩, hnone⟩

theorem ne_of_mem_rest {rest : Multiset Handler} (hp : p ∉ rest.map Handler.connection)
    (hm : x ∈ rest) : x.connection ≠ p := by
  intro he
  exact hp (he ▸ Multiset.mem_map_of_mem _ hm)

theorem mem_captured_of_mem {handlers : Multiset Handler} (hx : x ∈ handlers) :
    x.connection ∈ captured handlers :=
  mem_captured.mpr (Multiset.mem_map_of_mem _ hx)

theorem Owned.completion (h : Owned mConfig m t) (hh : m.handlers = .completion op p ::ₘ rest)
    (hi : invoke { m with handlers := rest } mConfig incoming (.completion op p) io = .next m') :
    ∃ s s' fs', t.connections p = some s ∧ s.complete io t.fs = .next (s', fs') ∧
      m'.created = m.created ∧
      Owned mConfig m' ⟨fs', Function.update t.connections p (some s')⟩ := by
  obtain ⟨hc, hp, s, ho, hts, hpend⟩ := h.take hh
  obtain ⟨s', fs', heap, hcomp, rfl, hcount, hobject⟩ :=
    invoke_completion (m := { m with handlers := rest }) hc ho hpend hi
  rw [← h.fs] at hcomp
  have hn := h.single
  have hone := h.acceptor
  rw [hh, Multiset.map_cons, Multiset.nodup_cons] at hn
  rw [hh, Multiset.countP_cons_of_neg _ (by simp [Handler.accepts])] at hone
  refine ⟨s, s', fs', hts, hcomp, rfl, owned_of_rest rfl hcount rfl hn.2 hn.1 hone
    (fun q hq => h.latest q (hh ▸ Multiset.mem_cons_of_mem hq)) ?_ ?_ ?_ ?_⟩
  · intro x hx
    have hne := ne_of_mem_rest hp hx
    have hox := hobject _ (mem_captured_of_mem (Multiset.mem_add.mpr (.inr hx)))
    have hserved := h.served x (hh ▸ Multiset.mem_cons_of_mem hx)
    exact hserved.congr (hox.trans (Function.update_of_ne hne ..)) (Function.update_of_ne hne ..)
  · intro op' hop'
    have hmem : p ∈ captured (Handler.ofPending s'.conn.pending p + rest) := by
      refine mem_captured_of_mem (x := .completion op' p) (Multiset.mem_add.mpr (.inl ?_))
      exact Handler.mem_ofPending.mpr ⟨op', hop', rfl⟩
    exact ⟨s', (hobject p hmem).trans (Function.update_self ..), Function.update_self .., hop'⟩
  · intro q r hq hnot hlast
    by_cases he : q = p
    · subst he
      obtain rfl : s' = r := by simpa using hq
      exact hlast rfl
    · refine h.ended q r ((Function.update_of_ne he ..).symm.trans hq) ?_
      rw [hh, Multiset.map_cons, Multiset.mem_cons, not_or]
      exact ⟨he, hnot⟩
  · intro q hq
    obtain ⟨hnot, hnone⟩ := h.fresh q hq
    rw [hh, Multiset.map_cons, Multiset.mem_cons, not_or] at hnot
    exact ⟨hnot.1, hnot.2, (Function.update_of_ne hnot.1 ..).trans hnone⟩

theorem Owned.accept (h : Owned mConfig m t) (hh : m.handlers = .accept p ::ₘ rest)
    (hi : invoke { m with handlers := rest } mConfig incoming (.accept p) io = .next m') :
    ∃ is t', Agents.Schedule (TcpServer.Step mConfig incoming fun _ _ => True) is t t' ∧
      Owned mConfig m' t' ∧ m'.created = m.created + 1 ∧
      (∀ q, q ≠ p → t'.connections q = t.connections q) ∧
      (t'.connections p = none ∨ t'.connections p = some (.accepted mConfig (incoming p))) := by
  obtain ⟨hc, hp, ho, hts⟩ := h.take hh
  have hnew := h.fresh m.created (Nat.le_refl _)
  have hn := h.single
  have hone := h.acceptor
  rw [hh, Multiset.map_cons, Multiset.nodup_cons] at hn
  rw [hh, Multiset.countP_cons_of_pos _ (by rfl)] at hone
  rw [hh, Multiset.map_cons, Multiset.mem_cons, not_or] at hnew
  obtain ⟨⟨hne, hnot⟩, hnone⟩ := hnew
  have hcreated : m.created ∉ p ::ₘ captured rest := by
    rw [Multiset.mem_cons, mem_captured, not_or]
    exact ⟨hne, hnot⟩
  obtain ⟨heap, started, rfl, hcount, hcases⟩ := invoke_accept (m := { m with handlers := rest })
    (p := p) (by simpa [Handler.captures] using hc) ho hcreated hi
  obtain ⟨is, t', hrun, hfs, hframe, hpt⟩ : ∃ is t',
      Agents.Schedule (TcpServer.Step mConfig incoming fun _ _ => True) is t t' ∧ t'.fs = t.fs ∧
      (∀ q, q ≠ p → t'.connections q = t.connections q) ∧
      t'.connections p = started.map fun _ => .accepted mConfig (incoming p) := by
    rcases hcases with ⟨rfl, _⟩ | ⟨rfl, _⟩
    · exact ⟨[p], _, .single (.accept hts), rfl, fun q hq => Function.update_of_ne hq ..,
        Function.update_self ..⟩
    · exact ⟨[], t, .nil, rfl, fun _ _ => rfl, hts⟩
  have hobject : ∀ q ∈ captured (Handler.ofPending started p + .accept m.created ::ₘ rest), q ≠ p →
      heap.object q =
        Function.update m.heap.object m.created (some ⟨.unstarted mConfig, []⟩) q := by
    intro q hq hqp
    rcases hcases with ⟨_, hob⟩ | ⟨_, hob⟩
    · rw [hob q hq, Function.update_apply, Function.update_of_ne hqp, ← Function.update_apply]
    · exact hob q hq
  have hlast : t'.connections p = none ∨
      t'.connections p = some (.accepted mConfig (incoming p)) := by
    rw [hpt]
    cases started <;> simp
  refine ⟨is, t', hrun,
    owned_of_rest (hfs.trans h.fs) hcount rfl ?_ ?_ ?_ ?_ ?_ ?_ ?_ ?_, rfl, hframe, hlast⟩
  · exact Multiset.map_cons _ _ _ ▸ Multiset.nodup_cons.mpr ⟨hnot, hn.2⟩
  · rw [Multiset.map_cons, Multiset.mem_cons, not_or]
    exact ⟨Ne.symm hne, hn.1⟩
  · rw [Multiset.countP_cons_of_pos _ (by rfl)]
    exact hone
  · intro q hq
    rcases Multiset.mem_cons.mp hq with he | hq
    · cases he
      rfl
    · exact absurd rfl (Multiset.countP_eq_zero.mp (Nat.succ.inj hone) _ hq)
  · intro x hx
    have hox := hobject _ (mem_captured_of_mem (Multiset.mem_add.mpr (.inr hx)))
    rcases Multiset.mem_cons.mp hx with rfl | hx
    · exact ⟨(hox hne).trans (Function.update_self ..), (hframe _ hne).trans hnone⟩
    · have hxp := ne_of_mem_rest hp hx
      have hserved := h.served x (hh ▸ Multiset.mem_cons_of_mem hx)
      exact hserved.congr ((hox hxp).trans (Function.update_of_ne (ne_of_mem_rest hnot hx) ..))
        (hframe _ hxp)
  · intro op hop
    have hmem : p ∈ captured (Handler.ofPending started p + .accept m.created ::ₘ rest) := by
      refine mem_captured_of_mem (x := .completion op p) (Multiset.mem_add.mpr (.inl ?_))
      exact Handler.mem_ofPending.mpr ⟨op, hop, rfl⟩
    rcases hcases with ⟨rfl, hob⟩ | ⟨rfl, _⟩
    · obtain rfl := Option.some.inj hop
      exact ⟨.accepted mConfig (incoming p), (hob p hmem).trans
        ((Function.update_of_ne (Ne.symm hne) ..).trans (Function.update_self ..)), hpt, rfl⟩
    · cases hop
  · intro q s hq hqn hlast
    rw [Multiset.map_cons, Multiset.mem_cons, not_or] at hqn
    by_cases he : q = p
    · subst he
      rw [hpt, hlast rfl] at hq
      cases hq
    · rw [hframe q he] at hq
      refine h.ended q s hq ?_
      rw [hh, Multiset.map_cons, Multiset.mem_cons, not_or]
      exact ⟨he, hqn.2⟩
  · intro q hq
    obtain ⟨hqn, hqnone⟩ := h.fresh q (Nat.le_of_succ_le hq)
    rw [hh, Multiset.map_cons, Multiset.mem_cons, not_or] at hqn
    rw [Multiset.map_cons, Multiset.mem_cons, not_or]
    exact ⟨hqn.1, ⟨Nat.ne_of_gt hq, hqn.2⟩, (hframe q hqn.1).trans hqnone⟩

theorem refines : Agents.Refines (Step mConfig incoming)
    (TcpServer.Step mConfig incoming fun _ _ => True) (Owned mConfig) := by
  intro call m m' t h hs
  cases hs with
  | @run x io _ _ rest hh hi =>
    cases x with
    | accept p =>
      obtain ⟨is, t', hrun, hm, _⟩ := h.accept hh hi
      exact ⟨is, t', hrun, hm⟩
    | completion op p =>
      obtain ⟨s, s', fs', hts, hcomp, _, hm⟩ := h.completion hh hi
      exact ⟨[p], _, .single (.handler hts trivial hcomp), hm⟩

/-- No handler runs into undefined behaviour, be it through a pointer to no object or inside
its connection. -/
theorem Owned.defined (h : Owned mConfig m t) (hsit : t.Situated mConfig incoming)
    (hh : m.handlers = x ::ₘ rest) (io : Io) :
    invoke { m with handlers := rest } mConfig incoming x io ≠ .undefined := by
  obtain ⟨_, _, hserved⟩ := h.take hh
  cases x with
  | accept p =>
    cases io with
    | ok =>
      rw [invoke_accept_ok (m := { m with handlers := rest }) hserved.1 rfl]
      nofun
    | error k =>
      rw [invoke_accept_error]
      nofun
  | completion op p =>
    obtain ⟨s, ho, hts, hpend⟩ := hserved
    have hdefined := (hsit p s hts).defined io m.fs
    simp only [invoke, ho, completeOp_eq hpend]
    split
    · nofun
    · contradiction
    · nofun

theorem Owned.exists_acceptor (h : Owned mConfig m t) :
    ∃ p rest, m.handlers = .accept p ::ₘ rest ∧ ∀ x ∈ rest, ∃ op q, x = .completion op q := by
  obtain ⟨x, hx, ha⟩ := Multiset.countP_pos.mp (h.acceptor ▸ Nat.one_pos)
  obtain ⟨rest, hrest⟩ := Multiset.exists_cons_of_mem hx
  cases x with
  | completion op q => cases ha
  | accept p =>
    refine ⟨p, rest, hrest, fun y hy => ?_⟩
    have hone := h.acceptor
    rw [hrest, Multiset.countP_cons_of_pos _ (by rfl)] at hone
    cases y with
    | completion op q => exact ⟨op, q, rfl⟩
    | accept q => exact absurd rfl (Multiset.countP_eq_zero.mp (Nat.succ.inj hone) _ hy)

/-- A connection that was started is on the heap as long as it waits for an operation, and
that operation has its handler. -/
theorem Owned.connection (h : Owned mConfig m t) (hs : t.connections p = some s) :
    (s.conn.pending = none ∧ m.heap.object p = none) ∨
      ∃ op, s.conn.pending = some op ∧ m.heap.object p = some s ∧
        .completion op p ∈ m.handlers := by
  by_cases hp : p ∈ m.handlers.map Handler.connection
  · obtain ⟨x, hx, rfl⟩ := Multiset.mem_map.mp hp
    have hserved := h.served x hx
    cases x with
    | accept p => cases hserved.2.symm.trans hs
    | completion op p =>
      obtain ⟨s', ho, hts, hpend⟩ := hserved
      obtain rfl := Option.some.inj (hts.symm.trans hs)
      exact .inr ⟨op, hpend, ho, hx⟩
  · exact .inl ⟨h.ended p s hs hp, h.counted.object_eq_none (mt mem_captured.mp hp)⟩

/-- The memory of the server, in every run and with failing accepts: the use counts are
right, and a connection is on the heap exactly while a handler holds it, which is the handler
of the only operation that it waits for. There is always one handler of async_accept, so that
run() does not return; nothing is undefined, no pointer dangles; and the server does what it
does with connections that are never freed. -/
theorem ownership (h : Agents.Schedule (Step mConfig incoming) calls (listening mConfig fs) m) :
    m.heap.Counted m.pointers ∧ (m.handlers.map Handler.connection).Nodup ∧
    (∃ p rest, m.handlers = .accept p ::ₘ rest ∧ ∀ x ∈ rest, ∃ op q, x = .completion op q) ∧
    (∀ x rest io, m.handlers = x ::ₘ rest →
      invoke { m with handlers := rest } mConfig incoming x io ≠ .undefined) ∧
    ∃ is t, Agents.Schedule (TcpServer.Step mConfig incoming fun _ _ => True) is
        (.listening fs) t ∧ t.fs = m.fs ∧
      ∀ p s, t.connections p = some s → (s.conn.pending = none ∧ m.heap.object p = none) ∨
        ∃ op, s.conn.pending = some op ∧ m.heap.object p = some s ∧
          .completion op p ∈ m.handlers := by
  obtain ⟨is, t, ht, hm⟩ := refines.run (owned_listening mConfig fs) h
  exact ⟨hm.counted, hm.single, hm.exists_acceptor,
    fun x rest io hh => hm.defined (TcpServer.Situated.of_run ht) hh io,
    is, t, ht, hm.fs, fun p s => hm.connection⟩

/-- A step with the handlers that go on waiting. -/
theorem Step.with_rest (rest : Multiset Handler) (hh : m.handlers = x ::ₘ rest)
    (hi : invoke { m with handlers := rest } mConfig incoming x io = .next m') :
    Step mConfig incoming (x, io) m m' :=
  .run hh hi

/-- Two clients: the first one has left, and the second one did not get through. -/
def brokenClients : List (Handler × Io) :=
  [(.accept 0, .ok), (.accept 1, .error 0), (.completion .readPreRequestHeader 0, .error 0)]

theorem brokenClients_run : ∃ m, Agents.Schedule (Step {} fun _ => []) brokenClients
    (listening {} (outDirectory [])) m :=
  ⟨_, .cons (.with_rest 0 rfl rfl)
    (.cons (.with_rest {.completion .readPreRequestHeader 0} rfl rfl)
      (.cons (.with_rest {.accept 2} (by exact Multiset.cons_swap (Handler.accept 2) _ 0)
        rfl) .nil))⟩

theorem ownership_sample : ∃ m, Agents.Schedule (Step {} fun _ => []) brokenClients
    (listening {} (outDirectory [])) m ∧ (m.handlers.map Handler.connection).Nodup := by
  obtain ⟨m, h⟩ := brokenClients_run
  exact ⟨m, h, (ownership h).2.1⟩

/-- What connection `p` has cost so far, in handler calls: its accept, and its operations that
have completed. -/
def spent (m : IoContext) (t : TcpServer Nat) (p : Nat) : Nat :=
  match t.connections p with
  | some s => s.conn.calls
  | none => if p + 1 < m.created then 1 else 0

theorem spent_of_some (h : t.connections p = some s) : spent m t p = s.conn.calls := by
  simp only [spent, h]

theorem spent_of_none (h : t.connections p = none) :
    spent m t p = if p + 1 < m.created then 1 else 0 := by
  simp only [spent, h]

theorem Owned.step_spent (h : Owned mConfig m t) (hs : Step mConfig incoming call m m') (p : Nat) :
    ∃ is t', Agents.Schedule (TcpServer.Step mConfig incoming fun _ _ => True) is t t' ∧
      Owned mConfig m' t' ∧
      spent m t p + (if call.1.connection = p then 1 else 0) ≤ spent m' t' p := by
  cases hs with
  | @run x io _ _ rest hh hi =>
    cases x with
    | accept q =>
      obtain ⟨is, t', hrun, hm, hcreated, hframe, hq⟩ := h.accept hh hi
      obtain ⟨_, _, _, hnone⟩ := h.take hh
      have hlatest := h.latest q (hh ▸ Multiset.mem_cons_self _ _)
      refine ⟨is, t', hrun, hm, ?_⟩
      by_cases he : q = p
      · subst he
        have hbefore : spent m t q = 0 := by simp [spent_of_none hnone, hlatest]
        rw [hbefore, Nat.zero_add]
        simp only [Handler.connection, if_true]
        rcases hq with hq | hq
        · simp [spent_of_none hq, hcreated, hlatest]
        · exact Nat.le_of_eq (spent_of_some hq).symm
      · have hframe := hframe p (Ne.symm he)
        simp only [Handler.connection, he, if_false, Nat.add_zero]
        cases hp : t.connections p with
        | some s => rw [spent_of_some hp, spent_of_some (hframe.trans hp)]
        | none =>
          rw [spent_of_none hp, spent_of_none (hframe.trans hp), hcreated]
          split <;> split <;> omega
    | completion op q =>
      obtain ⟨s, s', fs', hts, hcomp, hcreated, hm⟩ := h.completion hh hi
      refine ⟨[q], _, .single (.handler hts trivial hcomp), hm, ?_⟩
      by_cases he : q = p
      · subst he
        have hcalls := complete_calls hcomp
        rw [spent_of_some hts, spent_of_some (Function.update_self ..), hcalls]
        simp [Handler.connection]
      · simp [spent, Handler.connection, he, Function.update_of_ne (Ne.symm he), hcreated]

theorem Owned.run_spent (h : Owned mConfig m t) (p : Nat)
    (hs : Agents.Schedule (Step mConfig incoming) calls m m') :
    ∃ is t', Agents.Schedule (TcpServer.Step mConfig incoming fun _ _ => True) is t t' ∧
      Owned mConfig m' t' ∧
      spent m t p + calls.countP (fun call => call.1.connection = p) ≤ spent m' t' p := by
  induction hs generalizing t with
  | nil => exact ⟨[], t, .nil, h, by simp⟩
  | cons hstep _ ih =>
    obtain ⟨is, t₁, hrun, hm, hone⟩ := h.step_spent hstep p
    obtain ⟨js, t₂, hrest, hm', hle⟩ := ih hm
    refine ⟨is ++ js, t₂, hrun.append hrest, hm', ?_⟩
    rw [List.countP_cons]
    simp only [decide_eq_true_eq] at hle ⊢
    omega

/-- No client costs the server more than a bounded number of handler calls, whatever it sends,
whatever it announces and whoever else is connected: with the default limits it is 63. -/
theorem calls_bounded
    (h : Agents.Schedule (Step mConfig incoming) calls (listening mConfig fs) m) (p : Nat) :
    calls.countP (fun call => call.1.connection = p) ≤
      max 5 (3 * mConfig.mMaxNumHorcruxAccepted.toNat + 3) := by
  obtain ⟨is, t, hrun, hm, hle⟩ := (owned_listening mConfig fs).run_spent p h
  have hstart : spent (listening mConfig fs) (.listening fs) p = 0 := by
    have hcreated : (listening mConfig fs).created = 1 := rfl
    simp [spent, TcpServer.listening, hcreated]
  have hspent : spent m t p ≤ max 5 (3 * mConfig.mMaxNumHorcruxAccepted.toNat + 3) := by
    unfold spent
    split
    · rename_i s hs
      exact (TcpServer.Situated.of_run hrun p s hs).calls_le
    · split <;> omega
  omega

theorem calls_bounded_sample : brokenClients.countP (fun call => call.1.connection = 0) ≤ 63 := by
  obtain ⟨m, h⟩ := brokenClients_run
  exact (calls_bounded h 0).trans (by decide)

end IoContext
end Horcrux
