import Horcrux.Network
import Horcrux.Proofs.Grammar

namespace Horcrux
open Save Utils

namespace Network
variable {n m m' : Network} {s : Session} {fs : FileSystem} {io : Io}

/-- What the client can do. -/
theorem clientStep_cases (h : n.clientStep = some m) :
    (∃ b, n.client.buffer = some b ∧ m = { n with
      client := n.client.resume (.wrote b.length), toServer := n.toServer ++ b }) ∨
    (n.client.buffer = none ∧ n.client.reading = true ∧ 7 ≤ n.arrived.length ∧ m = { n with
      client := n.client.resume (.read (n.arrived.take 7)), arrived := n.arrived.drop 7 }) ∨
    (n.client.buffer = none ∧ n.client.reading = true ∧ n.arrived = [] ∧ n.toClient = [] ∧
      n.session.conn.pending = none ∧ m = { n with client := n.client.resume .readError }) := by
  unfold clientStep at h
  split at h
  · rename_i b hb
    exact .inl ⟨b, hb, (Option.some.inj h).symm⟩
  · rename_i hb
    split at h
    · rename_i hr
      split at h
      · rename_i hl
        exact .inr (.inl ⟨hb, hr, hl, (Option.some.inj h).symm⟩)
      · split at h
        · rename_i he
          exact .inr (.inr ⟨hb, hr, he.1, he.2.1, he.2.2, (Option.some.inj h).symm⟩)
        · cases h
    · cases h

/-- The state after a handler has run. -/
def afterHandler (n : Network) (s : Session) (fs : FileSystem) : Network :=
  { n with session := s, fs := fs, unsent := s.conn.outgoing }

theorem runHandler_eq (io : Io) (h : n.session.complete io n.fs = .next (s, fs)) :
    n.runHandler io = some (n.afterHandler s fs) := by
  simp [runHandler, h, afterHandler]

theorem runHandler_cases (h : n.runHandler io = some m) :
    ∃ s fs, n.session.complete io n.fs = .next (s, fs) ∧ m = n.afterHandler s fs := by
  unfold runHandler at h
  split at h
  · rename_i s fs hc
    exact ⟨s, fs, hc, (Option.some.inj h).symm⟩
  · cases h

/-- The pending read has its bytes, or the pending write is handed over. -/
def Ready (n : Network) : Prop :=
  (∀ k, n.session.conn.requested = some k → k ≤ n.session.unread.length) ∧
    (n.session.conn.requested = none → n.unsent = [])

theorem requested_none {c : TcpConnection} (h : c.requested = none) :
    c.pending = none ∨ ∃ outcome next, c.pending = some (.sendResponse outcome next) := by
  cases hp : c.pending with
  | none => exact .inl rfl
  | some op => cases op <;> simp_all [TcpConnection.requested]

theorem serverStep_requested (h : n.session.conn.requested = some k) : n.serverStep =
    if k ≤ n.session.unread.length then n.runHandler .ok
    else if n.client.phase = .done ∧ n.toServer = [] then
      n.runHandler (.error n.session.unread.length)
    else none := by
  cases hp : n.session.conn.pending with
  | none => simp [TcpConnection.requested, hp] at h
  | some op => cases op <;> simp_all [TcpConnection.requested, serverStep]

theorem serverStep_response (hp : n.session.conn.pending = some (.sendResponse outcome next)) :
    n.serverStep = if n.unsent = [] then n.runHandler .ok else none := by
  simp [serverStep, hp]

theorem serverStep_ready (hr : n.Ready) (h : n.session.complete .ok n.fs = .next (s, fs)) :
    n.serverStep = some (n.afterHandler s fs) := by
  have hrun := runHandler_eq .ok h
  cases hk : n.session.conn.requested with
  | some k => rw [serverStep_requested hk, if_pos (hr.1 k hk), hrun]
  | none =>
    rcases requested_none hk with hp | ⟨outcome, next, hp⟩
    · rw [Session.complete_none hp] at h
      cases h
    · rw [serverStep_response hp, if_pos (hr.2 hk), hrun]

theorem serverStep_hopeless (hk : n.session.conn.requested = some k)
    (hl : n.session.unread.length < k) (hd : n.client.phase = .done) (he : n.toServer = [])
    (h : n.session.complete (.error n.session.unread.length) n.fs = .next (s, fs)) :
    n.serverStep = some (n.afterHandler s fs) := by
  rw [serverStep_requested hk, if_neg (by omega), if_pos ⟨hd, he⟩, runHandler_eq _ h]

/-- What the server can do: run the handler of an operation that is ready, or fail a
read whose bytes will never come. -/
theorem serverStep_cases (h : n.serverStep = some m) :
    (∃ s fs, n.Ready ∧ n.session.complete .ok n.fs = .next (s, fs) ∧ m = n.afterHandler s fs) ∨
    (∃ s fs k, n.session.conn.requested = some k ∧ n.session.unread.length < k ∧
      n.client.phase = .done ∧ n.toServer = [] ∧
      n.session.complete (.error n.session.unread.length) n.fs = .next (s, fs) ∧
      m = n.afterHandler s fs) := by
  cases hk : n.session.conn.requested with
  | some k =>
    rw [serverStep_requested hk] at h
    split at h
    · rename_i hl
      obtain ⟨s, fs, hc, hm⟩ := runHandler_cases h
      exact .inl ⟨s, fs, ⟨by simp [hk, hl], by simp [hk]⟩, hc, hm⟩
    · rename_i hl
      split at h
      · rename_i hd
        obtain ⟨s, fs, hc, hm⟩ := runHandler_cases h
        exact .inr ⟨s, fs, k, rfl, by omega, hd.1, hd.2, hc, hm⟩
      · cases h
  | none =>
    rcases requested_none hk with hp | ⟨outcome, next, hp⟩
    · simp [serverStep, hp] at h
    · rw [serverStep_response hp] at h
      split at h
      · rename_i hu
        obtain ⟨s, fs, hc, hm⟩ := runHandler_cases h
        exact .inl ⟨s, fs, ⟨by simp [hk], fun _ => hu⟩, hc, hm⟩
      · cases h

theorem transmitStep_cases (h : n.transmitStep = some m) :
    ∃ outcome next b bs, n.session.conn.pending = some (.sendResponse outcome next) ∧
      n.unsent = b :: bs ∧ m = { n with unsent := bs, toClient := n.toClient ++ [b] } := by
  unfold transmitStep at h
  split at h
  · rename_i outcome next b bs hp hu
    exact ⟨outcome, next, b, bs, hp, hu, (Option.some.inj h).symm⟩
  · cases h

theorem deliverToServerStep_cases (h : n.deliverToServerStep = some m) :
    ∃ b bs, n.toServer = b :: bs ∧ m = { n with
      toServer := bs, session := { n.session with unread := n.session.unread ++ [b] } } := by
  unfold deliverToServerStep at h
  split at h
  · rename_i b bs hb
    exact ⟨b, bs, hb, (Option.some.inj h).symm⟩
  · cases h

theorem deliverToClientStep_cases (h : n.deliverToClientStep = some m) :
    ∃ b bs, n.toClient = b :: bs ∧ m = { n with toClient := bs, arrived := n.arrived ++ [b] } := by
  unfold deliverToClientStep at h
  split at h
  · rename_i b bs hb
    exact ⟨b, bs, hb, (Option.some.inj h).symm⟩
  · cases h

theorem clientStep_write (hb : n.client.buffer = some b) : n.clientStep = some { n with
    client := n.client.resume (.wrote b.length), toServer := n.toServer ++ b } := by
  simp [clientStep, hb]

theorem clientStep_read (hb : n.client.buffer = none) (hr : n.client.reading = true)
    (hl : 7 ≤ n.arrived.length) : n.clientStep = some { n with
      client := n.client.resume (.read (n.arrived.take 7)), arrived := n.arrived.drop 7 } := by
  simp [clientStep, hb, hr, hl]

theorem clientStep_closed (hb : n.client.buffer = none) (hr : n.client.reading = true)
    (ha : n.arrived = []) (ht : n.toClient = []) (hp : n.session.conn.pending = none) :
    n.clientStep = some { n with client := n.client.resume .readError } := by
  simp [clientStep, hb, hr, ha, ht, hp]

theorem clientStep_done (hd : n.client.phase = .done) : n.clientStep = none := by
  simp [clientStep, ClientMain.buffer, ClientMain.reading, hd]

theorem transmitStep_eq (hp : n.session.conn.pending = some (.sendResponse outcome next))
    (hu : n.unsent = b :: bs) :
    n.transmitStep = some { n with unsent := bs, toClient := n.toClient ++ [b] } := by
  simp [transmitStep, hp, hu]

theorem deliverToServerStep_eq (h : n.toServer = b :: bs) : n.deliverToServerStep = some { n with
    toServer := bs, session := { n.session with unread := n.session.unread ++ [b] } } := by
  simp [deliverToServerStep, h]

theorem deliverToClientStep_eq (h : n.toClient = b :: bs) :
    n.deliverToClientStep = some { n with toClient := bs, arrived := n.arrived ++ [b] } := by
  simp [deliverToClientStep, h]

/-- Both agents can still move after each other, and end in one state. -/
def Commute (a b : Network → Option Network) : Prop :=
  ∀ n m m', a n = some m → b n = some m' → ∃ k, b m = some k ∧ a m' = some k

theorem Commute.symm {a b : Network → Option Network} (h : Commute a b) : Commute b a := by
  intro n m m' hb ha
  obtain ⟨k, hk, hk'⟩ := h n m' m ha hb
  exact ⟨k, hk', hk⟩

theorem client_server : Commute clientStep serverStep := by
  intro n m m' hc hs
  rcases serverStep_cases hs with ⟨s, fs, hr, hcomp, rfl⟩ | ⟨_, _, _, _, _, hd, _⟩
  · rcases clientStep_cases hc with ⟨b, hb, rfl⟩ | ⟨hb, hrd, hl, rfl⟩ | ⟨_, _, _, _, hp, _⟩
    · exact ⟨_, serverStep_ready hr hcomp, clientStep_write hb⟩
    · exact ⟨_, serverStep_ready hr hcomp, clientStep_read hb hrd hl⟩
    · rw [Session.complete_none hp] at hcomp
      cases hcomp
  · rw [clientStep_done hd] at hc
    cases hc

theorem client_transmit : Commute clientStep transmitStep := by
  intro n m m' hc ht
  obtain ⟨outcome, next, b, bs, hp, hu, rfl⟩ := transmitStep_cases ht
  rcases clientStep_cases hc with ⟨b', hb, rfl⟩ | ⟨hb, hrd, hl, rfl⟩ | ⟨_, _, _, _, hn, _⟩
  · exact ⟨_, transmitStep_eq hp hu, clientStep_write hb⟩
  · exact ⟨_, transmitStep_eq hp hu, clientStep_read hb hrd hl⟩
  · rw [hn] at hp
    cases hp

theorem client_deliverToServer : Commute clientStep deliverToServerStep := by
  intro n m m' hc hd
  obtain ⟨b, bs, ht, rfl⟩ := deliverToServerStep_cases hd
  rcases clientStep_cases hc with ⟨b', hb, rfl⟩ | ⟨hb, hrd, hl, rfl⟩ | ⟨hb, hrd, ha, hn, hp, rfl⟩
  · have ht' : n.toServer ++ b' = b :: (bs ++ b') := by rw [ht, List.cons_append]
    exact ⟨_, deliverToServerStep_eq ht', clientStep_write hb⟩
  · exact ⟨_, deliverToServerStep_eq ht, clientStep_read hb hrd hl⟩
  · exact ⟨_, deliverToServerStep_eq ht, clientStep_closed hb hrd ha hn hp⟩

theorem client_deliverToClient : Commute clientStep deliverToClientStep := by
  intro n m m' hc hd
  obtain ⟨b, bs, ht, rfl⟩ := deliverToClientStep_cases hd
  rcases clientStep_cases hc with ⟨b', hb, rfl⟩ | ⟨hb, hrd, hl, rfl⟩ | ⟨_, _, _, hn, _⟩
  · exact ⟨_, deliverToClientStep_eq ht, clientStep_write hb⟩
  · have hl' : 7 ≤ (n.arrived ++ [b]).length := by
      rw [List.length_append]
      omega
    refine ⟨_, deliverToClientStep_eq ht, ?_⟩
    apply (clientStep_read (n := { n with toClient := bs, arrived := n.arrived ++ [b] })
      hb hrd hl').trans
    dsimp only
    rw [List.take_append_of_le_length hl, List.drop_append_of_le_length hl]
  · rw [hn] at ht
    cases ht

theorem server_transmit : Commute serverStep transmitStep := by
  intro n m m' hs ht
  obtain ⟨outcome, next, b, bs, hp, hu, rfl⟩ := transmitStep_cases ht
  have hk : n.session.conn.requested = none := by simp [TcpConnection.requested, hp]
  rcases serverStep_cases hs with ⟨s, fs, hr, _⟩ | ⟨_, _, _, hk', _⟩
  · rw [hr.2 hk] at hu
    cases hu
  · rw [hk] at hk'
    cases hk'

theorem server_deliverToServer : Commute serverStep deliverToServerStep := by
  intro n m m' hs hd
  obtain ⟨b, bs, ht, rfl⟩ := deliverToServerStep_cases hd
  rcases serverStep_cases hs with ⟨s, fs, hr, hcomp, rfl⟩ | ⟨_, _, _, _, _, _, he, _⟩
  · refine ⟨_, deliverToServerStep_eq ht, ?_⟩
    apply serverStep_ready (n := { n with
      toServer := bs, session := { n.session with unread := n.session.unread ++ [b] } })
    · refine ⟨fun k hk => ?_, hr.2⟩
      have hle := hr.1 k hk
      rw [List.length_append]
      omega
    · exact Session.complete_more hcomp [b]
  · rw [he] at ht
    cases ht

theorem server_deliverToClient : Commute serverStep deliverToClientStep := by
  intro n m m' hs hd
  obtain ⟨b, bs, ht, rfl⟩ := deliverToClientStep_cases hd
  rcases serverStep_cases hs with
    ⟨s, fs, hr, hcomp, rfl⟩ | ⟨s, fs, k, hk, hl, hdone, he, hcomp, rfl⟩
  · exact ⟨_, deliverToClientStep_eq ht, serverStep_ready hr hcomp⟩
  · exact ⟨_, deliverToClientStep_eq ht, serverStep_hopeless hk hl hdone he hcomp⟩

theorem transmit_deliverToServer : Commute transmitStep deliverToServerStep := by
  intro n m m' ht hd
  obtain ⟨outcome, next, b, bs, hp, hu, rfl⟩ := transmitStep_cases ht
  obtain ⟨b', bs', ht', rfl⟩ := deliverToServerStep_cases hd
  exact ⟨_, deliverToServerStep_eq ht', transmitStep_eq hp hu⟩

theorem transmit_deliverToClient : Commute transmitStep deliverToClientStep := by
  intro n m m' ht hd
  obtain ⟨outcome, next, b, bs, hp, hu, rfl⟩ := transmitStep_cases ht
  obtain ⟨b', bs', ht', rfl⟩ := deliverToClientStep_cases hd
  have ht'' : n.toClient ++ [b] = b' :: (bs' ++ [b]) := by rw [ht', List.cons_append]
  exact ⟨_, deliverToClientStep_eq ht'', transmitStep_eq hp hu⟩

theorem deliverToServer_deliverToClient : Commute deliverToServerStep deliverToClientStep := by
  intro n m m' hd hd'
  obtain ⟨b, bs, ht, rfl⟩ := deliverToServerStep_cases hd
  obtain ⟨b', bs', ht', rfl⟩ := deliverToClientStep_cases hd'
  exact ⟨_, deliverToClientStep_eq ht', deliverToServerStep_eq ht⟩

theorem step_commute (hne : a ≠ b) : Commute (step a) (step b) := by
  cases a <;> cases b
  case client.server => exact client_server
  case client.transmit => exact client_transmit
  case client.deliverToServer => exact client_deliverToServer
  case client.deliverToClient => exact client_deliverToClient
  case server.client => exact client_server.symm
  case server.transmit => exact server_transmit
  case server.deliverToServer => exact server_deliverToServer
  case server.deliverToClient => exact server_deliverToClient
  case transmit.client => exact client_transmit.symm
  case transmit.server => exact server_transmit.symm
  case transmit.deliverToServer => exact transmit_deliverToServer
  case transmit.deliverToClient => exact transmit_deliverToClient
  case deliverToServer.client => exact client_deliverToServer.symm
  case deliverToServer.server => exact server_deliverToServer.symm
  case deliverToServer.transmit => exact transmit_deliverToServer.symm
  case deliverToServer.deliverToClient => exact deliverToServer_deliverToClient
  case deliverToClient.client => exact client_deliverToClient.symm
  case deliverToClient.server => exact server_deliverToClient.symm
  case deliverToClient.transmit => exact transmit_deliverToClient.symm
  case deliverToClient.deliverToServer => exact deliverToServer_deliverToClient.symm
  all_goals exact False.elim (hne rfl)

/-- The order in which client, server and channels move makes no difference. -/
theorem independent : Agents.Independent Step fun _ => True where
  keeps _ _ := trivial
  det _ h h' := Option.some.inj (h.symm.trans h')
  commute _ hne h h' := step_commute hne _ _ _ h h'

end Network
end Horcrux
