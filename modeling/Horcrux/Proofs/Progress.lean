import Horcrux.Proofs.Grammar
import Horcrux.Proofs.Requests

namespace Horcrux
open Save Utils

/-- The peer can send bytes after which the connection holds all announced horcruxes and
has saved them. They follow the bytes that the connection has consumed so far. -/
def TcpConnection.CanFinish (c : TcpConnection) (fs : FileSystem) : Prop :=
  ∃ more n y, Agents.Schedule Session.Step (List.replicate n .ok) (⟨c, more⟩, fs) y ∧
    y.1.conn.filled = c.mPreRequestHeader.mNumHorcruxes.toNat ∧ .saved ∈ y.1.conn.trace

section
variable {mConfig : Config} {stream : Bytes} {c : TcpConnection} {u : Upload mConfig}
  {s s' : Session} {fs fs' : FileSystem} {x : Session × FileSystem}

/-- An incomplete upload admits an empty message for one of its free slots. -/
theorem exists_admitted (hl : u.messages.length < u.count) :
    ∃ m : Message, u.Admits m.head ∧ m.content.length = m.head.mContentSize.toNat := by
  have hentries : (u.messages.map Message.entry).length < u.count := by
    rw [List.length_map]
    exact hl
  obtain ⟨i, hi, hfree⟩ := Slots.Fits.exists_free hentries
  have hlt : i < 2 ^ 32 := hi.trans u.announced.mNumHorcruxes.toNat_lt
  have hhead : (request u.announced.mUuid (.ofNat i) []).head =
      ⟨u.announced.mUuid, .ofNat i, 0, 0⟩ := deserialize_requestHeader _ _
  refine ⟨request u.announced.mUuid (.ofNat i) [], ?_, ?_⟩
  · rw [hhead]
    refine ⟨rfl, ?_, ?_⟩
    · simpa only [UInt32.toNat_ofNat_of_lt' hlt] using hi
    · simpa only [UInt32.toNat_ofNat_of_lt' hlt] using hfree
  · rw [hhead]
    rfl

/-- Bytes that lead to a state from where the upload can be finished. -/
theorem TcpConnection.CanFinish.of_run {c' : TcpConnection}
    (h : Agents.Schedule Session.Step (List.replicate n .ok) (⟨c, bs⟩, fs) (⟨c', []⟩, fs))
    (hh : c'.mPreRequestHeader = c.mPreRequestHeader) (hf : c'.CanFinish fs) : c.CanFinish fs := by
  obtain ⟨more, k, y, hrun, hfilled, hsaved⟩ := hf
  rw [hh] at hfilled
  refine ⟨bs ++ more, n + k, y, ?_, hfilled, hsaved⟩
  rw [List.replicate_add]
  exact (Session.run_more h more).append hrun

/-- A content that is being read can be sent, and leads to a response. -/
theorem finish_content (hr : c.Receives u) (hp : c.pending = some .readRequestContent)
    (m : Message) (ha : u.Admits m.head) (hl : m.content.length = m.head.mContentSize.toNat)
    (hh : c.mRequestHeader = m.head)
    (hb : c.mMessageBuffer.length = c.mRequestHeader.mContentSize.toNat)
    (hf : ∀ c' : TcpConnection, c'.Receives (u.store m ha hl) →
      c'.pending = some (.sendResponse true (u.store m ha hl).next) → c'.CanFinish fs) :
    c.CanFinish fs := by
  obtain ⟨c', hrun, hr', hp'⟩ := receive_content hr hp m ha hl hh hb [] fs
  rw [List.append_nil] at hrun
  exact .of_run (n := 1) hrun (hr'.header.trans hr.header.symm) (hf c' hr' hp')

/-- From each response to an accepted message the upload can be finished. The induction
is on the slots that are still empty. -/
theorem finish_upload (hr : c.Receives u) (hp : c.pending = some (.sendResponse true u.next))
    (hpos : 0 < u.count) : c.CanFinish fs := by
  induction hk : u.count - u.messages.length generalizing c u with
  | zero =>
    have hc : u.Complete := ⟨by have := u.length_le; omega, hpos⟩
    rw [Upload.next, if_pos hc] at hp
    obtain ⟨fs', hsave⟩ := save_step hr hc hp [] fs
    refine ⟨[], 1, _, .single hsave, ?_, by simp⟩
    have hfilled := hr.filled
    rw [hc.1] at hfilled
    rw [hr.header]
    exact hfilled
  | succ k ih =>
    obtain ⟨m, ha, hl⟩ := exists_admitted (u := u) (by omega)
    rw [Upload.next, if_neg ha.not_complete] at hp
    obtain ⟨c', hrun, hr', hp', hh, hb⟩ := receive_header hr hp m.header ha [] fs
    rw [List.append_nil] at hrun
    refine .of_run (n := 2) hrun (hr'.header.trans hr.header.symm) ?_
    refine finish_content hr' hp' m ha hl hh hb fun c'' hr'' hp'' => ih hr'' hp'' hpos ?_
    have hlen : (u.store m ha hl).messages.length = u.messages.length + 1 := by simp [Upload.store]
    have hcount : (u.store m ha hl).count = u.count := rfl
    omega

/-- What the peer has yet to send has no part in the situation of a connection. -/
theorem Situation.continued (h : Situation mConfig stream s) (more : Bytes) :
    ∃ stream', Situation mConfig stream' ⟨s.conn, more⟩ := by
  cases h with
  | fresh => exact ⟨more, .fresh⟩
  | lost hs hp ht => exact ⟨stream, .lost hs hp ht⟩
  | refused pre hx hs hp ht => exact ⟨_, .refused pre rfl hs hp ht⟩
  | answering u hr hn hx hp ht => exact ⟨_, .answering u hr hn rfl hp ht⟩
  | listening u hr hn hx hp ht => exact ⟨_, .listening u hr hn rfl hp ht⟩
  | reading u header hr ha hx hh hb hp ht => exact ⟨_, .reading u header hr ha rfl hh hb hp ht⟩
  | cut u hr hn hp hx ht => exact ⟨stream, .cut u hr hn hp hx ht⟩
  | rejected u header hr hn ha hx hp ht => exact ⟨_, .rejected u header hr hn ha rfl hp ht⟩
  | complete u hr hc hx hp ht => exact ⟨_, .complete u hr hc rfl hp ht⟩
  | saved u hr hc hx hp ht => exact ⟨_, .saved u hr hc rfl hp ht⟩

/-- A pre-request for no horcrux at all is accepted, but never leads to a save. -/
theorem Situation.positive_of_canFinish (h : Situation mConfig stream s)
    (hf : s.conn.CanFinish fs) : 1 ≤ s.conn.mPreRequestHeader.mNumHorcruxes.toNat := by
  obtain ⟨more, n, y, hrun, hfilled, hsaved⟩ := hf
  obtain ⟨stream', hc⟩ := h.continued more
  obtain ⟨v, hr, hv, _, _⟩ := (hc.run hrun).saved_upload hsaved
  rw [← hfilled, hr.filled, hv.1]
  exact hv.2

theorem Situation.failure_issued (h : Situation mConfig stream s)
    (hp : s.conn.pending = some (.sendResponse false next)) : false ∈ s.conn.responses := by
  cases h with
  | refused _ _ _ _ ht => simp [TcpConnection.responses, ht, responsesOf]
  | rejected _ _ _ _ _ _ _ ht => simp [TcpConnection.responses, ht, responsesOf_append, responsesOf]
  | fresh => cases hp
  | lost _ hp' _ | answering _ _ _ _ hp' _ | listening _ _ _ _ hp' _
  | reading _ _ _ _ _ _ _ hp' _ | cut _ _ _ hp' _ _ | complete _ _ _ _ hp' _
  | saved _ _ _ _ hp' _ => cases hp'.symm.trans hp

/-- Without an I/O error only a FAILURE or a save leaves a connection with nothing to do. -/
theorem ended_of_ok (h : Agents.Schedule Session.Step (List.replicate n .ok)
    (.accepted mConfig stream, fs) x) (hp : x.1.conn.pending = none) :
    .saved ∈ x.1.conn.trace ∨ false ∈ x.1.conn.responses := by
  have hk := h.keeps (P := fun x => Situation mConfig stream x.1 ∧ (x.1.conn.pending = none →
    .saved ∈ x.1.conn.trace ∨ false ∈ x.1.conn.responses)) ?_ ⟨.fresh, fun hp => nomatch hp⟩
  · exact hk.2 hp
  · intro io hio x y hx hstep
    obtain ⟨s, f⟩ := x
    obtain ⟨s', f'⟩ := y
    obtain ⟨hs, _⟩ := hx
    refine ⟨hs.step hstep, ?_⟩
    intro hp
    rcases complete_cases hstep with ⟨he, _, _, hlast⟩ | ⟨op, _, hp', _⟩ | ⟨he, _⟩
    · obtain ⟨outcome, hp'⟩ := hlast (List.eq_of_mem_replicate hio)
      cases outcome with
      | true => exact False.elim (hs.pending hp')
      | false =>
        right
        dsimp only
        rw [TcpConnection.responses, he]
        exact hs.failure_issued hp'
    · cases hp'.symm.trans hp
    · left
      simp [he]

/-- There are no dead ends after SUCCESS, except for a pre-request that announces no
horcrux: checkPreRequestHeader lets it pass, but every request is rejected then. -/
theorem no_dead_ends_iff (h : Agents.Schedule Session.Step (List.replicate n .ok)
    (.accepted mConfig stream, fs) x) (ha : x.1.conn.Accepted)
    (hf : false ∉ x.1.conn.responses) :
    x.1.conn.CanFinish x.2 ↔ 1 ≤ x.1.conn.mPreRequestHeader.mNumHorcruxes.toNat := by
  have hx : Situation mConfig stream x.1 := Situation.of_reachable ⟨_, h⟩
  refine ⟨hx.positive_of_canFinish, ?_⟩
  intro hpos
  have hend := ended_of_ok h
  obtain ⟨s, fs'⟩ := x
  dsimp only at hx ha hf hpos hend ⊢
  cases hx with
  | fresh => simp [TcpConnection.Accepted, TcpConnection.responses, responsesOf] at ha
  | lost hs hp ht => simp [TcpConnection.Accepted, TcpConnection.responses, ht, responsesOf] at ha
  | refused pre hx hs hp ht =>
    simp [TcpConnection.Accepted, TcpConnection.responses, ht, responsesOf] at ha
  | answering u hr hn hx hp ht =>
    refine finish_upload hr ?_ ?_
    · rw [hp, Upload.next, if_neg hn]
    · rwa [hr.header] at hpos
  | listening u hr hn hx hp ht =>
    rw [hr.header] at hpos
    have hlt : u.messages.length < u.count :=
      Nat.lt_of_le_of_ne u.length_le fun he => hn ⟨he, hpos⟩
    obtain ⟨m, hadm, hl⟩ := exists_admitted hlt
    obtain ⟨c', hstep, hr', hp', hh, hb⟩ := read_header hr hp m.header hadm [] fs'
    rw [List.append_nil] at hstep
    refine .of_run (n := 1) (.single hstep) (hr'.header.trans hr.header.symm) ?_
    exact finish_content hr' hp' m hadm hl hh hb fun c'' hr'' hp'' => finish_upload hr'' hp'' hpos
  | reading u header hr hadm hx hh hb hp ht =>
    rw [hr.header] at hpos
    -- any bytes will do, as many as the header declares
    have hl : (List.replicate (deserializeHeader header : Request.Header).mContentSize.toNat
        (0 : UInt8)).length = (deserializeHeader header : Request.Header).mContentSize.toNat :=
      List.length_replicate
    exact finish_content hr hp ⟨header, _⟩ hadm hl hh hb fun c' hr' hp' =>
      finish_upload hr' hp' hpos
  | cut u hr hn hp hx ht =>
    rcases hend hp with he | he
    · rcases ht with ht | ht <;> simp [ht, saved_not_mem_received] at he
    · exact False.elim (hf he)
  | rejected u header hr hn hadm hx hp ht =>
    simp [TcpConnection.responses, ht, responsesOf_append, responsesOf] at hf
  | complete u hr hc hx hp ht =>
    refine finish_upload hr ?_ hc.2
    rw [hp, Upload.next, if_pos hc]
  | saved u hr hc hx hp ht =>
    refine ⟨[], 0, _, .nil, ?_, by simp [ht]⟩
    rw [hr.header]
    exact hr.filled.trans hc.1

theorem no_dead_ends_sample : ∃ x, Agents.Schedule Session.Step (List.replicate 1 .ok)
    (.accepted {} sampleStream, outDirectory []) x ∧ x.1.conn.CanFinish x.2 := by
  have h : Agents.Schedule Session.Step (List.replicate 1 .ok)
      (.accepted {} sampleStream, outDirectory []) _ := .single rfl
  exact ⟨_, h, (no_dead_ends_iff h rfl (by decide)).mpr (by decide)⟩

/-- An announcement of no horcrux is answered with SUCCESS, and nothing follows. -/
theorem dead_end : ¬ ∀ (mConfig : Config) (stream : Bytes) (fs : FileSystem) (n : Nat)
    (x : Session × FileSystem), Agents.Schedule Session.Step (List.replicate n .ok)
      (.accepted mConfig stream, fs) x → x.1.conn.Accepted → false ∉ x.1.conn.responses →
    x.1.conn.CanFinish x.2 := by
  intro h
  have hrun : Agents.Schedule Session.Step (List.replicate 1 .ok)
      (.accepted {} (preRequest 7 0 0).val, outDirectory []) _ := .single rfl
  have hf := h _ _ _ _ _ hrun rfl (by decide)
  exact absurd ((Situation.of_reachable ⟨_, hrun⟩).positive_of_canFinish hf) (by decide)

end
end Horcrux
