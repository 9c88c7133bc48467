import Horcrux.Proofs.Network
import Horcrux.Proofs.Shipping

namespace Horcrux
open Save Utils

/-- A response that is being written is in the buffer. -/
def TcpConnection.Answering (c : TcpConnection) : Prop :=
  ∀ outcome next, c.pending = some (.sendResponse outcome next) →
    c.mMessageBuffer = response outcome

theorem onPreRequestHeader_answering (c : TcpConnection) (buffer : CharArray 16) :
    (c.onPreRequestHeader buffer).Answering := by
  intro outcome next hp
  simp only [TcpConnection.onPreRequestHeader] at hp ⊢
  split at hp
  · rename_i hc
    cases hp
    rw [if_pos hc]
    rfl
  · rename_i hc
    cases hp
    rw [if_neg hc]
    rfl

theorem onRequestContent_answering {c c' : TcpConnection}
    (h : c.onRequestContent bytes = some c') : c'.Answering := by
  have hsent : c'.mMessageBuffer = response true ∧
      ∃ next, c'.pending = some (.sendResponse true next) := by
    simp only [TcpConnection.onRequestContent] at h
    split at h
    · cases h
      split
      · exact ⟨rfl, _, rfl⟩
      · exact ⟨rfl, _, rfl⟩
    · cases h
  obtain ⟨hm, next', hp'⟩ := hsent
  intro outcome next hp
  rw [hp'] at hp
  cases hp
  exact hm

theorem TcpConnection.Answering.outgoing {c : TcpConnection} (h : c.Answering)
    (hp : c.pending = some (.sendResponse outcome next)) : c.outgoing = response outcome := by
  rw [TcpConnection.outgoing, hp]
  exact h outcome next hp

namespace Network
variable {n : Network} {c c' : TcpConnection} {fs fs' : FileSystem}

/-- Nothing is on its way. -/
def idle (client : ClientMain) (session : Session) (fs : FileSystem) : Network :=
  { client := client, session := session, fs := fs }

/-- Client and server are through, and nothing is on its way. -/
def Finished (n : Network) : Prop :=
  n.client.phase = .done ∧ n.session.conn.pending = none ∧ n.toServer = [] ∧ n.toClient = []

theorem Finished.stuck (h : n.Finished) : Agents.Stuck Step n := by
  obtain ⟨hd, hp, hs, hc⟩ := h
  intro a m hm
  cases a with
  | client =>
    have he : n.clientStep = some m := hm
    rw [clientStep_done hd] at he
    cases he
  | server => simp [Step, step, serverStep, hp] at hm
  | transmit => simp [Step, step, transmitStep, hp] at hm
  | deliverToServer => simp [Step, step, deliverToServerStep, hs] at hm
  | deliverToClient => simp [Step, step, deliverToClientStep, hc] at hm

theorem deliverToServer_all (bs : Bytes) (h : n.toServer = bs) :
    Agents.Schedule Step (List.replicate bs.length .deliverToServer) n { n with
      toServer := [], session := { n.session with unread := n.session.unread ++ bs } } := by
  induction bs generalizing n with
  | nil =>
    obtain ⟨_, ⟨_, _⟩, _, _, _, _, _⟩ := n
    cases h
    simpa using .nil
  | cons b bs ih =>
    have hrest := ih (n := { n with
      toServer := bs, session := { n.session with unread := n.session.unread ++ [b] } }) rfl
    simp only [List.append_assoc, List.singleton_append] at hrest
    exact .cons (deliverToServerStep_eq h) hrest

theorem transmit_all (hp : n.session.conn.pending = some (.sendResponse outcome next)) (bs : Bytes)
    (h : n.unsent = bs) : Agents.Schedule Step (List.replicate bs.length .transmit) n { n with
      unsent := [], toClient := n.toClient ++ bs } := by
  induction bs generalizing n with
  | nil =>
    obtain ⟨_, _, _, _, _, _, _⟩ := n
    cases h
    simpa using .nil
  | cons b bs ih =>
    have hrest := ih (n := { n with unsent := bs, toClient := n.toClient ++ [b] }) hp rfl
    simp only [List.append_assoc, List.singleton_append] at hrest
    exact .cons (transmitStep_eq hp h) hrest

theorem deliverToClient_all (bs : Bytes) (h : n.toClient = bs) :
    Agents.Schedule Step (List.replicate bs.length .deliverToClient) n { n with
      toClient := [], arrived := n.arrived ++ bs } := by
  induction bs generalizing n with
  | nil =>
    obtain ⟨_, _, _, _, _, _, _⟩ := n
    cases h
    simpa using .nil
  | cons b bs ih =>
    have hrest := ih (n := { n with toClient := bs, arrived := n.arrived ++ [b] }) rfl
    simp only [List.append_assoc, List.singleton_append] at hrest
    exact .cons (deliverToClientStep_eq h) hrest

theorem client_writes (hb : n.client.buffer = some b) : Step .client n { n with
    client := n.client.resume (.wrote b.length), toServer := n.toServer ++ b } :=
  clientStep_write hb

theorem server_reads (hk : n.session.conn.requested = some k)
    (h : n.session.complete .ok n.fs = .next (s, fs)) : Step .server n (n.afterHandler s fs) := by
  refine serverStep_ready ⟨fun k' hk' => ?_, by simp [hk]⟩ h
  exact Session.complete_ok_length hk' h

/-- The server's response travels to the client, which reads it. -/
theorem answer (client : ClientMain) (unread : Bytes)
    (hp : c.pending = some (.sendResponse outcome next))
    (hb : client.buffer = none) (hr : client.reading = true)
    (hn : c.onResponse next fs = some (c', fs')) (ho : c'.outgoing = []) :
    ∃ as, Agents.Schedule Step as
      { idle client ⟨c, unread⟩ fs with unsent := response outcome }
      (idle (client.resume (.read (response outcome))) ⟨c', unread⟩ fs') := by
  have hsent := transmit_all (n := { idle client ⟨c, unread⟩ fs with unsent := response outcome })
    hp _ rfl
  have hcomp : Session.complete ⟨c, unread⟩ .ok fs = .next (⟨c', unread⟩, fs') := by
    apply (Session.complete_response hp .ok fs).trans
    simp [hn, Outcome.ofOption]
  have hwritten : Step .server { idle client ⟨c, unread⟩ fs with toClient := response outcome }
      { idle client ⟨c', unread⟩ fs' with toClient := response outcome } := by
    apply (serverStep_ready (n := { idle client ⟨c, unread⟩ fs with toClient := response outcome })
      ⟨by simp [TcpConnection.requested, hp, idle], fun _ => rfl⟩ hcomp).trans
    simp [afterHandler, idle, ho]
  have harrived := deliverToClient_all
    (n := { idle client ⟨c', unread⟩ fs' with toClient := response outcome }) _ rfl
  have hread : Step .client { idle client ⟨c', unread⟩ fs' with arrived := response outcome }
      (idle (client.resume (.read (response outcome))) ⟨c', unread⟩ fs') := by
    have hl := length_response outcome
    apply (clientStep_read (n := { idle client ⟨c', unread⟩ fs' with arrived := response outcome })
      hb hr (by simp [hl])).trans
    simp [List.take_of_length_le, List.drop_of_length_le, hl, idle]
  exact ⟨_, hsent.append (.cons hwritten (harrived.append (.single hread)))⟩

section Upload
variable {mConfig : Config} {u v : Upload mConfig} {base : ClientMain}

/-- The client's next two writes are the message, and `extra` after it. -/
structure Ships (base : ClientMain) (extra : Bytes) (r : Request) (m : Message) : Prop where
  header : m.header = serializeHeader r.mHeader (base.padding r.mHeader.mIndex)
  content : r.mContent = m.content ++ extra

/-- One turn of the send loop, up to the server's response. -/
theorem round (hr : c.Receives u) (hp : c.pending = some .readRequestHeader)
    (ha : u.Admits m.head) (hl : m.content.length = m.head.mContentSize.toNat)
    (hs : Ships base extra r m) (rest : List Request) (verdicts : List Bool) (fs : FileSystem) :
    ∃ as c', Agents.Schedule Step as
      (idle { base with phase := .sendHeader r rest, verdicts := verdicts } ⟨c, []⟩ fs)
      { idle { base with phase := .readResponse rest, verdicts := verdicts } ⟨c', extra⟩ fs with
        unsent := response true } ∧
      c'.Receives (u.store m ha hl) ∧
      c'.pending = some (.sendResponse true (u.store m ha hl).next) := by
  obtain ⟨hh, hc⟩ := hs
  obtain ⟨hr₁, hp₁, hh₁, hb₁, _⟩ := onRequestHeader_admitted hr m.header ha
  obtain ⟨c', hc', hr', hp', _⟩ := onRequestContent_stored hr₁ m ha hl hh₁ hb₁
  have hsize : m.content.length = (c.onRequestHeader m.header).contentBufferSize := by
    rw [TcpConnection.contentBufferSize, hb₁, Nat.min_self, hh₁]
    exact hl
  have hwrite₁ : Step .client
      (idle { base with phase := .sendHeader r rest, verdicts := verdicts } ⟨c, []⟩ fs)
      { idle { base with phase := .sendContent r rest, verdicts := verdicts } ⟨c, []⟩ fs with
        toServer := m.header.val } := by
    rw [hh]
    exact client_writes rfl
  have hwrite₂ : Step .client
      { idle { base with phase := .sendContent r rest, verdicts := verdicts } ⟨c, []⟩ fs with
        toServer := m.header.val }
      { idle { base with phase := .readResponse rest, verdicts := verdicts } ⟨c, []⟩ fs with
        toServer := m.header.val ++ (m.content ++ extra) } := by
    rw [← hc]
    exact client_writes rfl
  have hdeliver := deliverToServer_all (n := { idle
    { base with phase := .readResponse rest, verdicts := verdicts } ⟨c, []⟩ fs with
    toServer := m.header.val ++ (m.content ++ extra) }) _ rfl
  have hread₁ : Step .server
      (idle { base with phase := .readResponse rest, verdicts := verdicts }
        ⟨c, m.header.val ++ (m.content ++ extra)⟩ fs)
      (idle { base with phase := .readResponse rest, verdicts := verdicts }
        ⟨c.onRequestHeader m.header, m.content ++ extra⟩ fs) := by
    apply (server_reads (n := idle { base with phase := .readResponse rest, verdicts := verdicts }
      ⟨c, m.header.val ++ (m.content ++ extra)⟩ fs) (k := 24)
      (by simp [TcpConnection.requested, idle, hp])
      (Session.complete_ok_requestHeader hp m.header rfl)).trans
    simp [afterHandler, idle, TcpConnection.outgoing, hp₁]
  have hread₂ : Step .server
      (idle { base with phase := .readResponse rest, verdicts := verdicts }
        ⟨c.onRequestHeader m.header, m.content ++ extra⟩ fs)
      { idle { base with phase := .readResponse rest, verdicts := verdicts } ⟨c', extra⟩ fs with
        unsent := response true } := by
    apply (server_reads (n := idle { base with phase := .readResponse rest, verdicts := verdicts }
      ⟨c.onRequestHeader m.header, m.content ++ extra⟩ fs) (k := m.content.length)
      (by simp [TcpConnection.requested, idle, hp₁, hsize])
      (Session.complete_ok_requestContent hp₁ hsize rfl hc')).trans
    simp [afterHandler, idle, (onRequestContent_answering hc').outgoing hp']
  exact ⟨_, c', .cons hwrite₁ (.cons hwrite₂ (hdeliver.append (.cons hread₁ (.single hread₂)))),
    hr', hp'⟩

theorem eq_store_of_extends (hpre : v.pre = u.pre) (hv : v.messages = u.messages ++ [m])
    (ha : u.Admits m.head) (hl : m.content.length = m.head.mContentSize.toNat) :
    u.store m ha hl = v := by
  cases v
  simp_all [Upload.store]

/-- The send loop and the server's handlers, from the first request to the save. -/
theorem send_loop (hv : v.Complete) (hs : List.Forall₂ (Ships base []) rs ms)
    (hlast : Ships base extra r m) (verdicts : List Bool) (hr : c.Receives u)
    (hp : c.pending = some .readRequestHeader) (hpre : v.pre = u.pre)
    (hms : v.messages = u.messages ++ (ms ++ [m])) (fs : FileSystem) :
    ∃ as c' fs', Agents.Schedule Step as
      (idle { base with phase := ClientMain.sendLoop (rs ++ [r]), verdicts := verdicts } ⟨c, []⟩ fs)
      (idle { base with
          phase := .done, verdicts := verdicts ++ List.replicate (ms.length + 1) true }
        ⟨c', extra⟩ fs') ∧
      c'.Receives v ∧ c'.pending = none ∧ c'.saveHorcruxes fs = some fs' := by
  induction hs generalizing u c verdicts with
  | nil =>
    obtain ⟨ha, hl⟩ := admits_of_extends hpre hms
    obtain ⟨as, c₁, hround, hr₁, hp₁⟩ := round hr hp ha hl hlast [] verdicts fs
    rw [eq_store_of_extends hpre hms ha hl] at hr₁ hp₁
    rw [Upload.next, if_pos hv] at hp₁
    obtain ⟨fs', hfs⟩ := exists_saveHorcruxes (hr₁.all_filled hv) fs
    have hn : c₁.onResponse .saveHorcruxes fs =
        some ({ c₁.finish with trace := c₁.trace ++ [.saved] }, fs') := by
      simp [TcpConnection.onResponse, hfs]
    obtain ⟨bs, hanswer⟩ := answer { base with phase := .readResponse [], verdicts := verdicts }
      extra hp₁ rfl rfl hn rfl
    exact ⟨_, { c₁.finish with trace := c₁.trace ++ [.saved] }, fs', hround.append hanswer,
      ⟨hr₁.config, hr₁.header, hr₁.slots⟩, rfl, hfs⟩
  | @cons r₀ m₀ rs ms hship _ ih =>
    obtain ⟨ha, hl⟩ := admits_of_extends hpre hms
    obtain ⟨as, c₁, hround, hr₁, hp₁⟩ := round hr hp ha hl hship (rs ++ [r]) verdicts fs
    have hms' : v.messages = (u.store m₀ ha hl).messages ++ (ms ++ [m]) := by
      simp [Upload.store, hms]
    have hmore : ¬ (u.store m₀ ha hl).Complete := by
      intro hc
      have hlen := congrArg List.length hms'
      rw [List.length_append, List.length_append, List.length_singleton, hc.1, hv.1] at hlen
      have hcount : v.count = (u.store m₀ ha hl).count := by
        simp [Upload.count, Upload.announced, Upload.store, hpre]
      omega
    rw [Upload.next, if_neg hmore] at hp₁
    obtain ⟨bs, hanswer⟩ := answer
      { base with phase := .readResponse (rs ++ [r]), verdicts := verdicts } [] hp₁ rfl rfl
      (rfl : c₁.onResponse .readRequestHeader fs = some (c₁.readRequestHeader, fs)) rfl
    have hr₂ : c₁.readRequestHeader.Receives (u.store m₀ ha hl) :=
      ⟨hr₁.config, hr₁.header, hr₁.slots⟩
    obtain ⟨cs, c', fs', hloop, hr', hp', hsave⟩ := ih (verdicts ++ [true]) hr₂ rfl hpre hms'
    have hcount : verdicts ++ [true] ++ List.replicate (ms.length + 1) true =
        verdicts ++ List.replicate ((m₀ :: ms).length + 1) true := by
      rw [List.append_assoc]
      rfl
    rw [hcount] at hloop
    exact ⟨as ++ (bs ++ cs), c', fs', hround.append (hanswer.append hloop), hr', hp', hsave⟩

/-- The pre-request travels to the server, which checks it and starts to answer. -/
theorem opening (base : ClientMain) (pre : CharArray 16) (mConfig : Config) (fs : FileSystem)
    (hpre : pre = serializeHeader base.preRequestHeader noPadding) :
    ∃ as, Agents.Schedule Step as
      (connected { base with phase := .sendPreRequest } mConfig fs)
      { idle { base with phase := .readPreResponse }
          ⟨(TcpConnection.createNew mConfig).onPreRequestHeader pre, []⟩ fs with
        unsent := ((TcpConnection.createNew mConfig).onPreRequestHeader pre).outgoing } := by
  have hwrite : Step .client (connected { base with phase := .sendPreRequest } mConfig fs)
      { idle { base with phase := .readPreResponse } (.accepted mConfig []) fs with
        toServer := pre.val } := by
    rw [hpre]
    exact client_writes rfl
  have hdeliver := deliverToServer_all (n := { idle
    { base with phase := .readPreResponse } (.accepted mConfig []) fs with
    toServer := pre.val }) _ rfl
  have hread : Step .server
      (idle { base with phase := .readPreResponse } (.accepted mConfig pre.val) fs)
      { idle { base with phase := .readPreResponse }
          ⟨(TcpConnection.createNew mConfig).onPreRequestHeader pre, []⟩ fs with
        unsent := ((TcpConnection.createNew mConfig).onPreRequestHeader pre).outgoing } :=
    server_reads (n := idle { base with phase := .readPreResponse } (.accepted mConfig pre.val) fs)
      (k := 16) rfl (Session.complete_ok_preRequestHeader rfl pre (List.append_nil _).symm)
  exact ⟨_, .cons hwrite (hdeliver.append (.single hread))⟩

/-- A pre-request beyond the limits gets one FAILURE, and both sides stop. -/
theorem refused_run (base : ClientMain) (mConfig : Config) (fs : FileSystem)
    (hpre : pre = serializeHeader base.preRequestHeader noPadding)
    (hl : ¬ ((announcement pre).mNumHorcruxes.toNat ≤ mConfig.mMaxNumHorcruxAccepted.toNat ∧
      (announcement pre).mTotalSize.toNat ≤ mConfig.mMaxTotalSizeAccepted.toNat)) :
    ∃ as c, Agents.Schedule Step as
      (connected { base with phase := .sendPreRequest, verdicts := [] } mConfig fs)
      (idle { base with phase := .done, verdicts := [false] } ⟨c, []⟩ fs) ∧
      c.pending = none ∧ c.responses = [false] := by
  obtain ⟨_, hp, ht⟩ := onPreRequestHeader_refused mConfig pre hl
  obtain ⟨as, hopen⟩ := opening { base with verdicts := [] } pre mConfig fs hpre
  rw [(onPreRequestHeader_answering _ _).outgoing hp] at hopen
  obtain ⟨bs, hanswer⟩ := answer { base with phase := .readPreResponse, verdicts := [] } [] hp rfl
    rfl (rfl : TcpConnection.onResponse _ .nothing fs = some (_, fs)) rfl
  refine ⟨as ++ bs, _, hopen.append hanswer, rfl, ?_⟩
  rw [TcpConnection.responses, TcpConnection.finish, ht]
  rfl

/-- A complete upload within the limits is answered with SUCCESS throughout and saved. -/
theorem accepted_run (base : ClientMain) (fs : FileSystem) (hv : v.Complete)
    (hpre : v.pre = serializeHeader base.preRequestHeader noPadding)
    (hreq : Request.fromHorcruxes base.preRequestHeader.mUuid base.horcruxes = rs ++ [r])
    (hs : List.Forall₂ (Ships base []) rs ms) (hlast : Ships base extra r m)
    (hms : v.messages = ms ++ [m]) :
    ∃ as c fs', Agents.Schedule Step as
      (connected { base with phase := .sendPreRequest, verdicts := [] } mConfig fs)
      (idle { base with phase := .done, verdicts := List.replicate (ms.length + 2) true }
        ⟨c, extra⟩ fs') ∧
      c.Receives v ∧ c.pending = none ∧ c.saveHorcruxes fs = some fs' := by
  obtain ⟨hr, hp, _⟩ := onPreRequestHeader_announced mConfig v.pre v.number v.size
  obtain ⟨as, hopen⟩ := opening { base with verdicts := [] } v.pre mConfig fs hpre
  rw [(onPreRequestHeader_answering _ _).outgoing hp] at hopen
  obtain ⟨bs, hanswer⟩ := answer { base with phase := .readPreResponse, verdicts := [] } [] hp rfl
    rfl (rfl : TcpConnection.onResponse _ .readRequestHeader fs = some (_, fs)) rfl
  have hclient : ClientMain.resume { base with phase := .readPreResponse, verdicts := [] }
      (.read (response true)) =
      { base with phase := ClientMain.sendLoop (rs ++ [r]), verdicts := [true] } := by
    rw [← hreq]
    rfl
  rw [hclient] at hanswer
  obtain ⟨cs, c, fs', hloop, hr', hp', hsave⟩ := send_loop hv hs hlast [true]
    (c := TcpConnection.readRequestHeader _) (u := Upload.announce v.pre v.number v.size)
    ⟨hr.config, hr.header, hr.slots⟩ rfl rfl hms fs
  exact ⟨as ++ (bs ++ cs), c, fs', hopen.append (hanswer.append hloop), hr', hp', hsave⟩

end Upload
end Network
end Horcrux
