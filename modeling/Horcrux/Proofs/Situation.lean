import Horcrux.Upload
import Mathlib.Tactic.Tauto

namespace Horcrux
open Save Utils

/-- The connection's members agree with the upload that its peer has made so far. -/
structure TcpConnection.Receives {mConfig : Config} (c : TcpConnection) (u : Upload mConfig) :
    Prop where
  config : c.mConfig = mConfig
  header : c.mPreRequestHeader = u.announced
  slots : c.mCurrentRequestHorcruxes = u.slots

/-- The trace of a connection that has stored `k` horcruxes and goes on. -/
def receivedTrace : Nat → List Event
  | 0 => [.started .readPreRequestHeader, .started (.sendResponse true .readRequestHeader)]
  | k + 1 => receivedTrace k ++ [.started .readRequestHeader, .started .readRequestContent,
      .started (.sendResponse true .readRequestHeader)]

/-- The trace of a connection that has stored the last of `k + 1` horcruxes. -/
def completeTrace (k : Nat) : List Event :=
  receivedTrace k ++ [.started .readRequestHeader, .started .readRequestContent,
    .started (.sendResponse true .saveHorcruxes)]

theorem mem_receivedTrace (h : e ∈ receivedTrace k) :
    e ∈ [.started .readPreRequestHeader, .started (.sendResponse true .readRequestHeader),
      .started .readRequestHeader, .started .readRequestContent] := by
  induction k with
  | zero =>
    simp only [receivedTrace, List.mem_cons, List.not_mem_nil, or_false] at h ⊢
    tauto
  | succ k ih =>
    rcases List.mem_append.mp h with h | h
    · exact ih h
    · simp only [List.mem_cons, List.not_mem_nil, or_false] at h ⊢
      tauto

/-- Everything that can become of a connection whose peer sends `stream`. -/
inductive Situation (mConfig : Config) (stream : Bytes) : Session → Prop
  | fresh : Situation mConfig stream (.accepted mConfig stream)
  | lost (hs : c.mCurrentRequestHorcruxes = []) (hp : c.pending = none)
      (ht : c.trace = [.started .readPreRequestHeader]) : Situation mConfig stream ⟨c, unread⟩
  | refused (pre : CharArray 16) (hx : stream = pre.val ++ unread)
      (hs : c.mCurrentRequestHorcruxes = [])
      (hp : c.pending = some (.sendResponse false .nothing) ∨ c.pending = none)
      (ht : c.trace = [.started .readPreRequestHeader, .started (.sendResponse false .nothing)]) :
      Situation mConfig stream ⟨c, unread⟩
  | answering (u : Upload mConfig) (hr : c.Receives u) (hn : ¬ u.Complete)
      (hx : stream = u.bytes ++ unread)
      (hp : c.pending = some (.sendResponse true .readRequestHeader))
      (ht : c.trace = receivedTrace u.messages.length) : Situation mConfig stream ⟨c, unread⟩
  | listening (u : Upload mConfig) (hr : c.Receives u) (hn : ¬ u.Complete)
      (hx : stream = u.bytes ++ unread) (hp : c.pending = some .readRequestHeader)
      (ht : c.trace = receivedTrace u.messages.length ++ [.started .readRequestHeader]) :
      Situation mConfig stream ⟨c, unread⟩
  | reading (u : Upload mConfig) (header : CharArray 24) (hr : c.Receives u)
      (ha : u.Admits (deserializeHeader header)) (hx : stream = u.bytes ++ (header.val ++ unread))
      (hh : c.mRequestHeader = deserializeHeader header)
      (hb : c.mMessageBuffer.length = c.mRequestHeader.mContentSize.toNat)
      (hp : c.pending = some .readRequestContent)
      (ht : c.trace = receivedTrace u.messages.length ++
        [.started .readRequestHeader, .started .readRequestContent]) :
      Situation mConfig stream ⟨c, unread⟩
  | cut (u : Upload mConfig) (hr : c.Receives u) (hn : ¬ u.Complete) (hp : c.pending = none)
      (hx : ∃ rest, stream = u.bytes ++ rest)
      (ht : c.trace = receivedTrace u.messages.length ++ [.started .readRequestHeader] ∨
        c.trace = receivedTrace u.messages.length ++
          [.started .readRequestHeader, .started .readRequestContent]) :
      Situation mConfig stream ⟨c, unread⟩
  | rejected (u : Upload mConfig) (header : CharArray 24) (hr : c.Receives u) (hn : ¬ u.Complete)
      (ha : ¬ u.Admits (deserializeHeader header))
      (hx : stream = u.bytes ++ (header.val ++ unread))
      (hp : c.pending = some (.sendResponse false .nothing) ∨ c.pending = none)
      (ht : c.trace = receivedTrace u.messages.length ++
        [.started .readRequestHeader, .started (.sendResponse false .nothing)]) :
      Situation mConfig stream ⟨c, unread⟩
  | complete (u : Upload mConfig) (hr : c.Receives u) (hc : u.Complete)
      (hx : stream = u.bytes ++ unread)
      (hp : c.pending = some (.sendResponse true .saveHorcruxes))
      (ht : c.trace = completeTrace (u.count - 1)) : Situation mConfig stream ⟨c, unread⟩
  | saved (u : Upload mConfig) (hr : c.Receives u) (hc : u.Complete)
      (hx : stream = u.bytes ++ unread) (hp : c.pending = none)
      (ht : c.trace = completeTrace (u.count - 1) ++ [.saved]) :
      Situation mConfig stream ⟨c, unread⟩

theorem receive_eq_some (h : receive n bs = some (buffer, rest)) : bs = buffer.val ++ rest := by
  unfold receive at h
  split at h
  · simp only [Option.some.injEq, Prod.mk.injEq] at h
    obtain ⟨rfl, rfl⟩ := h
    simp
  · cases h

theorem receive_append (buffer : CharArray n) (rest : Bytes) :
    receive n (buffer.val ++ rest) = some (buffer, rest) := by
  obtain ⟨bs, rfl⟩ := buffer
  simp [receive]

namespace Session
variable {s s' : Session} {fs fs' : FileSystem} {io : Io}

@[simp] theorem accepted_trace (mConfig : Config) (stream : Bytes) :
    (accepted mConfig stream).conn.trace = [.started .readPreRequestHeader] := rfl

@[simp] theorem accepted_slots (mConfig : Config) (stream : Bytes) :
    (accepted mConfig stream).conn.mCurrentRequestHorcruxes = [] := rfl

theorem complete_none (hp : s.conn.pending = none) (io : Io) (fs : FileSystem) :
    s.complete io fs = .blocked := by
  simp [complete, hp]

/-- However a write ends, the continuation runs. -/
theorem complete_response (hp : s.conn.pending = some (.sendResponse outcome next)) (io : Io)
    (fs : FileSystem) : s.complete io fs =
      .ofOption ((s.conn.onResponse next fs).map fun r => (⟨r.1, s.unread⟩, r.2)) := by
  simp [complete, hp]

/-- A read that ends in an error is given up, whatever was to be read. -/
theorem complete_error (hn : s.conn.requested ≠ none) (k : Nat) (fs : FileSystem) :
    s.complete (.error k) fs = s.fail k fs := by
  unfold TcpConnection.requested at hn
  split at hn <;> try contradiction
  all_goals
    rename_i hp
    simp [complete, hp]

theorem fail_next (h : s.fail k fs = .next (s', fs')) :
    s' = ⟨s.conn.finish, s.unread.drop k⟩ ∧ fs' = fs := by
  unfold fail at h
  split at h
  · split at h
    · simp only [Outcome.next.injEq, Prod.mk.injEq] at h
      exact ⟨h.1.symm, h.2.symm⟩
    · cases h
  · cases h

theorem complete_preRequestHeader (hp : s.conn.pending = some .readPreRequestHeader)
    (h : s.complete io fs = .next (s', fs')) : fs' = fs ∧
      ((∃ k, io = .error k ∧ s' = ⟨s.conn.finish, s.unread.drop k⟩) ∨
        ∃ buffer rest, s.unread = buffer.val ++ rest ∧
          s' = ⟨s.conn.onPreRequestHeader buffer, rest⟩) := by
  cases io with
  | error k =>
    obtain ⟨rfl, rfl⟩ := fail_next (by simpa [complete, hp] using h)
    exact ⟨rfl, .inl ⟨k, rfl, rfl⟩⟩
  | ok =>
    simp only [complete, hp] at h
    split at h
    · cases h
    · rename_i buffer rest hb
      simp only [Outcome.next.injEq, Prod.mk.injEq] at h
      exact ⟨h.2.symm, .inr ⟨buffer, rest, receive_eq_some hb, h.1.symm⟩⟩

theorem complete_requestHeader (hp : s.conn.pending = some .readRequestHeader)
    (h : s.complete io fs = .next (s', fs')) : fs' = fs ∧
      ((∃ k, io = .error k ∧ s' = ⟨s.conn.finish, s.unread.drop k⟩) ∨
        ∃ buffer rest, s.unread = buffer.val ++ rest ∧
          s' = ⟨s.conn.onRequestHeader buffer, rest⟩) := by
  cases io with
  | error k =>
    obtain ⟨rfl, rfl⟩ := fail_next (by simpa [complete, hp] using h)
    exact ⟨rfl, .inl ⟨k, rfl, rfl⟩⟩
  | ok =>
    simp only [complete, hp] at h
    split at h
    · cases h
    · rename_i buffer rest hb
      simp only [Outcome.next.injEq, Prod.mk.injEq] at h
      exact ⟨h.2.symm, .inr ⟨buffer, rest, receive_eq_some hb, h.1.symm⟩⟩

theorem complete_requestContent (hp : s.conn.pending = some .readRequestContent)
    (h : s.complete io fs = .next (s', fs')) : fs' = fs ∧
      ((∃ k, io = .error k ∧ s' = ⟨s.conn.finish, s.unread.drop k⟩) ∨
        ∃ (bytes : CharArray s.conn.contentBufferSize) (rest : Bytes) (c : TcpConnection),
          s.unread = bytes.val ++ rest ∧ s.conn.onRequestContent bytes.val = some c ∧
          s' = ⟨c, rest⟩) := by
  cases io with
  | error k =>
    obtain ⟨rfl, rfl⟩ := fail_next (by simpa [complete, hp] using h)
    exact ⟨rfl, .inl ⟨k, rfl, rfl⟩⟩
  | ok =>
    simp only [complete, hp] at h
    split at h
    · cases h
    · rename_i bytes rest hb
      cases hc : s.conn.onRequestContent bytes.val with
      | none => simp [hc, Outcome.ofOption] at h
      | some c =>
        simp only [hc, Option.map_some, Outcome.ofOption, Outcome.next.injEq, Prod.mk.injEq] at h
        exact ⟨h.2.symm, .inr ⟨bytes, rest, c, receive_eq_some hb, hc, h.1.symm⟩⟩

theorem complete_response_next {next : NextOp}
    (hp : s.conn.pending = some (.sendResponse outcome next))
    (h : s.complete io fs = .next (s', fs')) :
    ∃ c', s.conn.onResponse next fs = some (c', fs') ∧ s' = ⟨c', s.unread⟩ := by
  rw [complete_response hp] at h
  cases hr : s.conn.onResponse next fs with
  | none => simp [hr, Outcome.ofOption] at h
  | some r =>
    simp only [hr, Option.map_some, Outcome.ofOption, Outcome.next.injEq, Prod.mk.injEq] at h
    exact ⟨r.1, by rw [← h.2], h.1.symm⟩

theorem complete_ok_preRequestHeader (hp : s.conn.pending = some .readPreRequestHeader)
    (pre : CharArray 16) (hb : s.unread = pre.val ++ rest) :
    s.complete .ok fs = .next (⟨s.conn.onPreRequestHeader pre, rest⟩, fs) := by
  simp [complete, hp, hb, receive_append]

theorem complete_ok_requestHeader (hp : s.conn.pending = some .readRequestHeader)
    (header : CharArray 24) (hb : s.unread = header.val ++ rest) :
    s.complete .ok fs = .next (⟨s.conn.onRequestHeader header, rest⟩, fs) := by
  simp [complete, hp, hb, receive_append]

theorem complete_ok_requestContent (hp : s.conn.pending = some .readRequestContent)
    (hl : content.length = s.conn.contentBufferSize) (hb : s.unread = content ++ rest)
    (hc : s.conn.onRequestContent content = some c) :
    s.complete .ok fs = .next (⟨c, rest⟩, fs) := by
  have hr := receive_append ⟨content, hl⟩ rest
  simp [complete, hp, hb, hr, hc, Outcome.ofOption]

/-- A read that succeeds had all its bytes. -/
theorem complete_ok_length (hn : s.conn.requested = some n)
    (h : s.complete .ok fs = .next x) : n ≤ s.unread.length := by
  by_contra hlt
  have hr : receive n s.unread = none := dif_neg hlt
  unfold TcpConnection.requested at hn
  split at hn <;> cases hn <;> rename_i hp <;> simp [complete, hp, hr] at h

theorem fail_more (h : s.fail k fs = .next (s', fs')) (bs : Bytes) :
    fail ⟨s.conn, s.unread ++ bs⟩ k fs = .next (⟨s'.conn, s'.unread ++ bs⟩, fs') := by
  unfold fail at h ⊢
  dsimp only
  cases hn : s.conn.requested with
  | none => simp [hn] at h
  | some n =>
    simp only [hn] at h ⊢
    split at h
    · rename_i hlt
      cases h
      have hle : k ≤ (s.unread ++ bs).length := by
        rw [List.length_append]
        omega
      rw [if_pos ⟨hlt.1, hle⟩, List.drop_append_of_le_length hlt.2]
    · cases h

theorem error_more (hn : s.conn.requested ≠ none)
    (h : s.complete (.error k) fs = .next (s', fs')) (bs : Bytes) :
    complete ⟨s.conn, s.unread ++ bs⟩ (.error k) fs =
      .next (⟨s'.conn, s'.unread ++ bs⟩, fs') := by
  rw [complete_error hn] at h
  exact (complete_error (s := ⟨s.conn, s.unread ++ bs⟩) hn k fs).trans (fail_more h bs)

/-- Bytes that arrive later do not change what a handler does. -/
theorem complete_more (h : s.complete io fs = .next (s', fs')) (bs : Bytes) :
    complete ⟨s.conn, s.unread ++ bs⟩ io fs = .next (⟨s'.conn, s'.unread ++ bs⟩, fs') := by
  cases hp : s.conn.pending with
  | none => rw [complete_none hp] at h; cases h
  | some op =>
    cases op with
    | readPreRequestHeader =>
      cases io with
      | error k => exact error_more (by simp [TcpConnection.requested, hp]) h bs
      | ok =>
        obtain ⟨rfl, ⟨_, he, _⟩ | ⟨buffer, rest, hb, rfl⟩⟩ := complete_preRequestHeader hp h
        · cases he
        · apply complete_ok_preRequestHeader (s := ⟨s.conn, s.unread ++ bs⟩) hp
          rw [hb, List.append_assoc]
    | readRequestHeader =>
      cases io with
      | error k => exact error_more (by simp [TcpConnection.requested, hp]) h bs
      | ok =>
        obtain ⟨rfl, ⟨_, he, _⟩ | ⟨buffer, rest, hb, rfl⟩⟩ := complete_requestHeader hp h
        · cases he
        · apply complete_ok_requestHeader (s := ⟨s.conn, s.unread ++ bs⟩) hp
          rw [hb, List.append_assoc]
    | readRequestContent =>
      cases io with
      | error k => exact error_more (by simp [TcpConnection.requested, hp]) h bs
      | ok =>
        obtain ⟨rfl, ⟨_, he, _⟩ | ⟨bytes, rest, c, hb, hc, rfl⟩⟩ := complete_requestContent hp h
        · cases he
        · apply complete_ok_requestContent (s := ⟨s.conn, s.unread ++ bs⟩) hp bytes.property _ hc
          rw [hb, List.append_assoc]
    | sendResponse outcome next =>
      obtain ⟨c', hc, rfl⟩ := complete_response_next hp h
      apply (complete_response (s := ⟨s.conn, s.unread ++ bs⟩) hp io fs).trans
      simp [hc, Outcome.ofOption]

/-- Nor what a whole run does. -/
theorem run_more {x y : Session × FileSystem} (h : Agents.Schedule Step ios x y) (bs : Bytes) :
    Agents.Schedule Step ios (⟨x.1.conn, x.1.unread ++ bs⟩, x.2)
      (⟨y.1.conn, y.1.unread ++ bs⟩, y.2) := by
  induction h with
  | nil => exact .nil
  | cons hs _ ih => exact .cons (complete_more hs bs) ih

/-- A handler changes the filesystem only where it saves the horcruxes. -/
theorem complete_fs (h : s.complete io fs = .next (s', fs')) :
    (∃ outcome, s.conn.pending = some (.sendResponse outcome .saveHorcruxes) ∧
      s.conn.saveHorcruxes fs = some fs' ∧
      s' = ⟨{ s.conn.finish with trace := s.conn.trace ++ [.saved] }, s.unread⟩) ∨
    (fs' = fs ∧ ∀ outcome, s.conn.pending ≠ some (.sendResponse outcome .saveHorcruxes)) := by
  cases hp : s.conn.pending with
  | none => rw [complete_none hp] at h; cases h
  | some op =>
    cases op with
    | readPreRequestHeader => exact .inr ⟨(complete_preRequestHeader hp h).1, by simp⟩
    | readRequestHeader => exact .inr ⟨(complete_requestHeader hp h).1, by simp⟩
    | readRequestContent => exact .inr ⟨(complete_requestContent hp h).1, by simp⟩
    | sendResponse outcome next =>
      obtain ⟨c', hc, rfl⟩ := complete_response_next hp h
      cases next with
      | readRequestHeader => cases hc; exact .inr ⟨rfl, by simp⟩
      | nothing => cases hc; exact .inr ⟨rfl, by simp⟩
      | saveHorcruxes =>
        obtain ⟨fs'', hf, he⟩ := Option.bind_eq_some_iff.mp hc
        cases he
        exact .inl ⟨outcome, rfl, hf, rfl⟩

end Session

section Handlers
variable {mConfig : Config} {c c' : TcpConnection} {u : Upload mConfig} {stream rest : Bytes}

theorem checkPreRequestHeader_iff (c : TcpConnection) : c.checkPreRequestHeader = true ↔
    c.mPreRequestHeader.mNumHorcruxes.toNat ≤ c.mConfig.mMaxNumHorcruxAccepted.toNat ∧
      c.mPreRequestHeader.mTotalSize.toNat ≤ c.mConfig.mMaxTotalSizeAccepted.toNat := by
  unfold TcpConnection.checkPreRequestHeader
  simp only [gt_iff_lt, UInt64.lt_iff_toNat_lt, UInt32.toNat_toUInt64]
  split
  · simp only [Bool.false_eq_true, false_iff]
    omega
  · split
    · simp only [Bool.false_eq_true, false_iff]
      omega
    · simp only [true_iff]
      omega

/-- The three tests of checkRequestHeader are those of the protocol. -/
theorem checkRequestHeader_iff (hr : c.Receives u) :
    c.checkRequestHeader = true ↔ u.Admits c.mRequestHeader := by
  unfold TcpConnection.checkRequestHeader Upload.Admits
  have hl : c.mCurrentRequestHorcruxes.length = u.count := by rw [hr.slots, u.length_slots]
  rw [hr.header]
  split
  · simp_all
  · rename_i hu
    split
    · rename_i hi
      simp only [Bool.false_eq_true, false_iff]
      omega
    · rename_i hi
      have hlt : c.mRequestHeader.mIndex.toNat < u.count := by omega
      have hs := u.slots_empty_iff hlt
      rw [← hr.slots, List.getElem?_eq_getElem (by omega), Option.some.injEq] at hs
      rw [← hs]
      cases hc : c.mCurrentRequestHorcruxes[c.mRequestHeader.mIndex.toNat] <;> simp_all

/-- They are made on the header that has just been read. -/
theorem checkRequestHeader_received (hr : c.Receives u) (header : CharArray 24) :
    { c with
      mRequestHeaderBuffer := header
      mRequestHeader := deserializeHeader header : TcpConnection }.checkRequestHeader = true ↔
      u.Admits (deserializeHeader header) := by
  have hr' : { c with
      mRequestHeaderBuffer := header
      mRequestHeader := deserializeHeader header : TcpConnection }.Receives u :=
    ⟨hr.config, hr.header, hr.slots⟩
  exact checkRequestHeader_iff hr'

/-- After a complete upload no slot is empty. -/
theorem TcpConnection.Receives.all_filled (hr : c.Receives u) (hc : u.Complete) :
    c.mCurrentRequestHorcruxes.all Option.isSome = true := by
  rw [hr.slots]
  exact u.slots_all_isSome.mpr hc.1

theorem announce_not_complete (pre : CharArray 16) (hn hs) :
    ¬ (Upload.announce pre hn hs : Upload mConfig).Complete := by
  intro h
  obtain ⟨he, hpos⟩ := h
  have hz : (Upload.announce pre hn hs : Upload mConfig).messages.length = 0 := rfl
  omega

/-- The handler of a pre-request within the limits makes an empty table. -/
theorem onPreRequestHeader_announced (mConfig : Config) (pre : CharArray 16) (hn hs) :
    ((TcpConnection.createNew mConfig).onPreRequestHeader pre).Receives
        (Upload.announce pre hn hs : Upload mConfig) ∧
      ((TcpConnection.createNew mConfig).onPreRequestHeader pre).pending =
        some (.sendResponse true .readRequestHeader) ∧
      ((TcpConnection.createNew mConfig).onPreRequestHeader pre).trace = receivedTrace 0 := by
  have hcheck := (checkPreRequestHeader_iff { TcpConnection.createNew mConfig with
      mPreRequestHeaderBuffer := pre
      mPreRequestHeader := deserializeHeader pre }).mpr ⟨hn, hs⟩
  simp only [TcpConnection.onPreRequestHeader, hcheck, ↓reduceIte]
  refine ⟨⟨rfl, rfl, ?_⟩, rfl, rfl⟩
  simp [TcpConnection.sendResponse, TcpConnection.start, resize, Upload.slots,
    TcpConnection.createNew, TcpConnection.readPreRequestHeader, Upload.announce,
    Upload.count, Upload.announced, announcement]

theorem onPreRequestHeader_refused (mConfig : Config) (pre : CharArray 16)
    (hl : ¬ ((announcement pre).mNumHorcruxes.toNat ≤ mConfig.mMaxNumHorcruxAccepted.toNat ∧
      (announcement pre).mTotalSize.toNat ≤ mConfig.mMaxTotalSizeAccepted.toNat)) :
    ((TcpConnection.createNew mConfig).onPreRequestHeader pre).mCurrentRequestHorcruxes = [] ∧
      ((TcpConnection.createNew mConfig).onPreRequestHeader pre).pending =
        some (.sendResponse false .nothing) ∧
      ((TcpConnection.createNew mConfig).onPreRequestHeader pre).trace =
        [.started .readPreRequestHeader, .started (.sendResponse false .nothing)] := by
  have hcheck := Bool.eq_false_iff.mpr
    (fun h => hl ((checkPreRequestHeader_iff { TcpConnection.createNew mConfig with
      mPreRequestHeaderBuffer := pre
      mPreRequestHeader := deserializeHeader pre }).mp h))
  simp only [TcpConnection.onPreRequestHeader, hcheck, Bool.false_eq_true, ↓reduceIte]
  exact ⟨rfl, rfl, rfl⟩

theorem onPreRequestHeader_situation (mConfig : Config) (pre : CharArray 16) (rest : Bytes) :
    Situation mConfig (pre.val ++ rest)
      ⟨(TcpConnection.createNew mConfig).onPreRequestHeader pre, rest⟩ := by
  by_cases hl : (announcement pre).mNumHorcruxes.toNat ≤ mConfig.mMaxNumHorcruxAccepted.toNat ∧
      (announcement pre).mTotalSize.toNat ≤ mConfig.mMaxTotalSizeAccepted.toNat
  · obtain ⟨hr, hp, ht⟩ := onPreRequestHeader_announced mConfig pre hl.1 hl.2
    refine .answering (.announce pre hl.1 hl.2) hr (announce_not_complete pre _ _) ?_ hp ht
    simp [Upload.bytes, Upload.announce]
  · obtain ⟨hs, hp, ht⟩ := onPreRequestHeader_refused mConfig pre hl
    exact .refused pre rfl hs (.inl hp) ht

/-- The handler of an admitted header makes room for its content and reads it. -/
theorem onRequestHeader_admitted (hr : c.Receives u) (header : CharArray 24)
    (ha : u.Admits (deserializeHeader header)) :
    (c.onRequestHeader header).Receives u ∧
      (c.onRequestHeader header).pending = some .readRequestContent ∧
      (c.onRequestHeader header).mRequestHeader = deserializeHeader header ∧
      (c.onRequestHeader header).mMessageBuffer.length =
        (c.onRequestHeader header).mRequestHeader.mContentSize.toNat ∧
      (c.onRequestHeader header).trace = c.trace ++ [.started .readRequestContent] := by
  have hcheck := (checkRequestHeader_received hr header).mpr ha
  simp only [TcpConnection.onRequestHeader, hcheck, ↓reduceIte]
  refine ⟨⟨hr.config, hr.header, hr.slots⟩, rfl, rfl, ?_, rfl⟩
  simp only [TcpConnection.readRequestContent, TcpConnection.start, resize,
    List.length_append, List.length_take, List.length_replicate]
  omega

theorem onRequestHeader_rejected (hr : c.Receives u) (header : CharArray 24)
    (ha : ¬ u.Admits (deserializeHeader header)) :
    (c.onRequestHeader header).Receives u ∧
      (c.onRequestHeader header).pending = some (.sendResponse false .nothing) ∧
      (c.onRequestHeader header).trace = c.trace ++ [.started (.sendResponse false .nothing)] := by
  have hcheck := Bool.eq_false_iff.mpr (fun h => ha ((checkRequestHeader_received hr header).mp h))
  simp only [TcpConnection.onRequestHeader, hcheck, Bool.false_eq_true, ↓reduceIte]
  exact ⟨⟨hr.config, hr.header, hr.slots⟩, rfl, rfl⟩

theorem onRequestHeader_situation (hr : c.Receives u) (hn : ¬ u.Complete)
    (hx : stream = u.bytes ++ (buffer.val ++ rest))
    (ht : c.trace = receivedTrace u.messages.length ++ [.started .readRequestHeader]) :
    Situation mConfig stream ⟨c.onRequestHeader buffer, rest⟩ := by
  by_cases ha : u.Admits (deserializeHeader buffer)
  · obtain ⟨hr', hp, hh, hb, ht'⟩ := onRequestHeader_admitted hr buffer ha
    exact .reading u buffer hr' ha hx hh hb hp (by simp [ht', ht])
  · obtain ⟨hr', hp, ht'⟩ := onRequestHeader_rejected hr buffer ha
    exact .rejected u buffer hr' hn ha hx (.inl hp) (by simp [ht', ht])

theorem Upload.Complete.count_store {m : Message} {ha : u.Admits m.head}
    {hl : m.content.length = m.head.mContentSize.toNat} (hc : (u.store m ha hl).Complete) :
    (u.store m ha hl).count - 1 = u.messages.length := by
  have h := hc.1
  have hlen : (u.store m ha hl).messages.length = u.messages.length + 1 := by simp [Upload.store]
  omega

/-- What follows the response to the last message of the upload. -/
def Upload.next (u : Upload mConfig) : NextOp :=
  if u.Complete then .saveHorcruxes else .readRequestHeader

/-- The handler of a content stores exactly the message, whatever was in the shared
buffer before. -/
theorem onRequestContent_stored (hr : c.Receives u) (m : Message) (ha : u.Admits m.head)
    (hl : m.content.length = m.head.mContentSize.toNat) (hh : c.mRequestHeader = m.head)
    (hb : c.mMessageBuffer.length = c.mRequestHeader.mContentSize.toNat) :
    ∃ c', c.onRequestContent m.content = some c' ∧ c'.Receives (u.store m ha hl) ∧
      c'.pending = some (.sendResponse true (u.store m ha hl).next) ∧
      c'.trace = c.trace ++ [.started (.sendResponse true (u.store m ha hl).next)] := by
  have hdrop : c.mMessageBuffer.drop m.content.length = [] := by
    rw [hl, ← hh, ← hb, List.drop_length]
  have hlt : c.mRequestHeader.mIndex.toNat < c.mCurrentRequestHorcruxes.length := by
    rw [hr.slots, hh, u.length_slots]
    exact ha.2.1
  have hslots : c.mCurrentRequestHorcruxes.set c.mRequestHeader.mIndex.toNat
      (some ⟨m.content, []⟩) = (u.store m ha hl).slots := by
    rw [Upload.store_slots, hr.slots, hh]
  have hall : (u.store m ha hl).slots.all Option.isSome = true ↔ (u.store m ha hl).Complete :=
    (u.store m ha hl).slots_all_isSome.trans
      (iff_self_and.mpr fun _ => Nat.zero_lt_of_lt ha.2.1)
  simp only [TcpConnection.onRequestContent, hlt, ↓reduceIte, hdrop, List.append_nil, hslots]
  refine ⟨_, rfl, ?_⟩
  unfold Upload.next
  by_cases hfull : (u.store m ha hl).Complete
  · rw [if_pos (hall.mpr hfull), if_pos hfull]
    exact ⟨⟨hr.config, hr.header, rfl⟩, rfl, rfl⟩
  · rw [if_neg (fun h => hfull (hall.mp h)), if_neg hfull]
    exact ⟨⟨hr.config, hr.header, rfl⟩, rfl, rfl⟩

theorem onRequestContent_situation (m : Message) (hr : c.Receives u) (ha : u.Admits m.head)
    (hx : stream = u.bytes ++ (m.bytes ++ rest)) (hh : c.mRequestHeader = m.head)
    (hb : c.mMessageBuffer.length = c.mRequestHeader.mContentSize.toNat)
    (hm : m.content.length = c.contentBufferSize)
    (ht : c.trace = receivedTrace u.messages.length ++
      [.started .readRequestHeader, .started .readRequestContent])
    (hc : c.onRequestContent m.content = some c') : Situation mConfig stream ⟨c', rest⟩ := by
  have hl : m.content.length = m.head.mContentSize.toNat := by
    rw [hm, TcpConnection.contentBufferSize, hb, Nat.min_self, hh]
  have hbytes : stream = (u.store m ha hl).bytes ++ rest := by
    rw [hx, Upload.store_bytes, List.append_assoc]
  have hlen : (u.store m ha hl).messages.length = u.messages.length + 1 := by simp [Upload.store]
  obtain ⟨c'', hc', hr', hp, ht'⟩ := onRequestContent_stored hr m ha hl hh hb
  rw [hc] at hc'
  cases hc'
  unfold Upload.next at hp ht'
  split at hp
  · rename_i hfull
    refine .complete (u.store m ha hl) hr' hfull hbytes hp ?_
    rw [hfull.count_store, ht', if_pos hfull]
    simp [ht, completeTrace]
  · rename_i hfull
    refine .answering (u.store m ha hl) hr' hfull hbytes hp ?_
    rw [ht', if_neg hfull, hlen]
    simp [ht, receivedTrace]

/-- One handler of a connection keeps to the situations. -/
theorem Situation.step {s s' : Session} (hs : Situation mConfig stream s)
    (h : s.complete io fs = .next (s', fs')) : Situation mConfig stream s' := by
  cases hs with
  | fresh =>
    obtain ⟨_, ⟨k, _, rfl⟩ | ⟨pre, rest, hb, rfl⟩⟩ := Session.complete_preRequestHeader rfl h
    · exact .lost rfl rfl rfl
    · have hstream : stream = pre.val ++ rest := hb
      rw [hstream]
      exact onPreRequestHeader_situation mConfig pre rest
  | lost _ hp _ => rw [Session.complete_none hp] at h; cases h
  | refused pre hx hs hp ht =>
    rcases hp with hp | hp
    · obtain ⟨c', hc, rfl⟩ := Session.complete_response_next hp h
      cases hc
      exact .refused pre hx hs (.inr rfl) ht
    · rw [Session.complete_none hp] at h; cases h
  | answering u hr hn hx hp ht =>
    obtain ⟨c', hc, rfl⟩ := Session.complete_response_next hp h
    cases hc
    refine .listening u ⟨hr.config, hr.header, hr.slots⟩ hn hx rfl ?_
    simp [TcpConnection.readRequestHeader, TcpConnection.start, ht]
  | listening u hr hn hx hp ht =>
    obtain ⟨_, ⟨k, _, rfl⟩ | ⟨header, rest, hb, rfl⟩⟩ := Session.complete_requestHeader hp h
    · exact .cut u ⟨hr.config, hr.header, hr.slots⟩ hn rfl ⟨_, hx⟩ (.inl ht)
    · dsimp only at hb
      exact onRequestHeader_situation hr hn (by rw [hx, hb]) ht
  | reading u header hr ha hx hh hb hp ht =>
    obtain ⟨_, ⟨k, _, rfl⟩ | ⟨bytes, rest, c', hbytes, hc, rfl⟩⟩ :=
      Session.complete_requestContent hp h
    · exact .cut u ⟨hr.config, hr.header, hr.slots⟩ ha.not_complete rfl ⟨_, hx⟩ (.inr ht)
    · dsimp only at hbytes hc
      refine onRequestContent_situation ⟨header, bytes.val⟩ hr ha ?_ hh hb bytes.property ht hc
      rw [hx, hbytes, Message.bytes, List.append_assoc]
  | cut _ _ _ hp _ _ => rw [Session.complete_none hp] at h; cases h
  | rejected u header hr hn ha hx hp ht =>
    rcases hp with hp | hp
    · obtain ⟨c', hc, rfl⟩ := Session.complete_response_next hp h
      cases hc
      exact .rejected u header ⟨hr.config, hr.header, hr.slots⟩ hn ha hx (.inr rfl) ht
    · rw [Session.complete_none hp] at h; cases h
  | complete u hr hc hx hp ht =>
    obtain ⟨c', hc', rfl⟩ := Session.complete_response_next hp h
    obtain ⟨fs'', _, he⟩ := Option.bind_eq_some_iff.mp hc'
    cases he
    refine .saved u ⟨hr.config, hr.header, hr.slots⟩ hc hx rfl ?_
    simp [ht]
  | saved _ _ _ _ hp _ => rw [Session.complete_none hp] at h; cases h

theorem Situation.run {x y : Session × FileSystem} (hx : Situation mConfig stream x.1)
    (h : Agents.Schedule Session.Step ios x y) : Situation mConfig stream y.1 := by
  refine h.keeps (P := fun x => Situation mConfig stream x.1) ?_ hx
  intro io _ x y hx hs
  obtain ⟨s, fs⟩ := x
  obtain ⟨s', fs'⟩ := y
  exact Situation.step hx hs

/-- What every handler of every run keeps. -/
theorem Situation.of_reachable (h : Session.Reachable mConfig stream fs x) :
    Situation mConfig stream x.1 := by
  obtain ⟨ios, hr⟩ := h
  exact Situation.run (x := (.accepted mConfig stream, fs)) .fresh hr

end Handlers
end Horcrux
