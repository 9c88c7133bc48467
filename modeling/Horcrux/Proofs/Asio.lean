import Horcrux.Asio
import Horcrux.Lib.Agents
import Horcrux.Proofs.Exchange
import Horcrux.Proofs.Isolation

namespace Horcrux
open Save Utils Asio

section Memory
variable {memory data : Bytes}

theorem overwrite_zero (memory data : Bytes) (h : data.length ≤ memory.length) :
    overwrite memory 0 data = data ++ memory.drop data.length := by
  simp [overwrite, List.take_of_length_le h]

/-- Two writes, the second one right after the first, are one. -/
theorem overwrite_append (h : (data ++ more).length ≤ memory.length) :
    overwrite (overwrite memory 0 data) data.length more = overwrite memory 0 (data ++ more) := by
  rw [List.length_append] at h
  rw [overwrite_zero memory data (by omega),
    overwrite_zero _ _ (by rw [List.length_append]; exact h)]
  have hmore : more.length ≤ (data ++ memory.drop data.length).length - data.length := by
    rw [List.length_append, List.length_drop]
    omega
  rw [overwrite, List.take_left, List.take_of_length_le hmore, List.drop_append,
    List.drop_of_length_le (by omega), Nat.add_sub_cancel_left, List.drop_drop,
    List.length_append, List.nil_append]

theorem overwrite_whole (h : data.length = memory.length) : overwrite memory 0 data = data := by
  rw [overwrite_zero memory data h.le, h, List.drop_length, List.append_nil]

theorem overwriteArray_nil (a : CharArray n) : overwriteArray a 0 [] = a := by
  apply Subtype.ext
  exact overwrite_zero a.val [] (Nat.zero_le _)

theorem overwriteArray_append (a : CharArray n) (h : (data ++ more).length ≤ n) :
    overwriteArray (overwriteArray a 0 data) data.length more =
      overwriteArray a 0 (data ++ more) := by
  apply Subtype.ext
  apply overwrite_append
  rw [a.property]
  exact h

theorem overwriteArray_whole (a b : CharArray n) : overwriteArray a 0 b.val = b := by
  apply Subtype.ext
  apply overwrite_whole
  rw [a.property, b.property]

end Memory

namespace TcpConnection
variable {c : TcpConnection} {data more : Bytes}

@[simp] theorem fillBuffer_pending (c : TcpConnection) (k : Nat) (data : Bytes) :
    (c.fillBuffer k data).pending = c.pending := by
  unfold fillBuffer
  split <;> rfl

/-- Where the bytes go, the connection takes no notice of them. -/
structure SameButBuffers (c d : TcpConnection) : Prop where
  config : c.mConfig = d.mConfig
  preRequestHeader : c.mPreRequestHeader = d.mPreRequestHeader
  requestHeader : c.mRequestHeader = d.mRequestHeader
  slots : c.mCurrentRequestHorcruxes = d.mCurrentRequestHorcruxes
  pending : c.pending = d.pending
  trace : c.trace = d.trace

theorem SameButBuffers.refl (c : TcpConnection) : c.SameButBuffers c :=
  ⟨rfl, rfl, rfl, rfl, rfl, rfl⟩

theorem fillBuffer_same (c : TcpConnection) (k : Nat) (data : Bytes) :
    (c.fillBuffer k data).SameButBuffers c := by
  unfold fillBuffer
  split <;> exact ⟨rfl, rfl, rfl, rfl, rfl, rfl⟩

theorem SameButBuffers.symm (h : c.SameButBuffers d) : d.SameButBuffers c :=
  ⟨h.config.symm, h.preRequestHeader.symm, h.requestHeader.symm, h.slots.symm, h.pending.symm,
    h.trace.symm⟩

theorem SameButBuffers.trans (h : c.SameButBuffers d) (h' : d.SameButBuffers e) :
    c.SameButBuffers e :=
  ⟨h.config.trans h'.config, h.preRequestHeader.trans h'.preRequestHeader,
    h.requestHeader.trans h'.requestHeader, h.slots.trans h'.slots, h.pending.trans h'.pending,
    h.trace.trans h'.trace⟩

theorem SameButBuffers.finish (h : c.SameButBuffers d) : c.finish.SameButBuffers d.finish :=
  ⟨h.config, h.preRequestHeader, h.requestHeader, h.slots, rfl, h.trace⟩

theorem fillBuffer_nil (c : TcpConnection) : c.fillBuffer 0 [] = c := by
  unfold fillBuffer
  split <;> simp [overwriteArray_nil, overwrite_zero]

@[simp] theorem fillBuffer_requested (c : TcpConnection) (k : Nat) (data : Bytes) :
    (c.fillBuffer k data).requested = c.requested := by
  cases hp : c.pending with
  | none => simp [fillBuffer, hp]
  | some op => cases op <;> simp [fillBuffer, requested, contentBufferSize, hp]

theorem bufferSize_eq (hn : c.requested = some n) : c.bufferSize = n := by
  unfold requested at hn
  split at hn <;> cases hn <;> rename_i hp <;> simp [bufferSize, hp]

theorem contentBufferSize_le (c : TcpConnection) : c.contentBufferSize ≤ c.mMessageBuffer.length :=
  Nat.min_le_left _ _

/-- The bytes of one more transfer go right behind those before. -/
theorem fillBuffer_append (hn : c.requested = some n) (h : (data ++ more).length ≤ n) :
    (c.fillBuffer 0 data).fillBuffer data.length more = c.fillBuffer 0 (data ++ more) := by
  unfold requested at hn
  split at hn
  · rename_i hp
    cases hn
    simp [fillBuffer, hp, overwriteArray_append _ h]
  · rename_i hp
    cases hn
    simp [fillBuffer, hp, overwriteArray_append _ h]
  · rename_i hp
    cases hn
    simp [fillBuffer, hp, overwrite_append (h.trans c.contentBufferSize_le)]
  · cases hn

/-- A handler finds in the buffer what was read, and nothing else has changed. -/
theorem onPreRequestHeader_filled (hp : c.pending = some .readPreRequestHeader)
    (pre : CharArray 16) :
    (c.fillBuffer 0 pre.val).onPreRequestHeader (c.fillBuffer 0 pre.val).mPreRequestHeaderBuffer =
      c.onPreRequestHeader pre := by
  simp [fillBuffer, hp, overwriteArray_whole, onPreRequestHeader, checkPreRequestHeader,
    sendResponse, start]

theorem onRequestHeader_filled (hp : c.pending = some .readRequestHeader) (header : CharArray 24) :
    (c.fillBuffer 0 header.val).onRequestHeader (c.fillBuffer 0 header.val).mRequestHeaderBuffer =
      c.onRequestHeader header := by
  simp [fillBuffer, hp, overwriteArray_whole, onRequestHeader, checkRequestHeader,
    readRequestContent, sendResponse, start]

theorem onRequestContent_filled (hp : c.pending = some .readRequestContent)
    (hl : data.length = c.contentBufferSize) :
    (c.fillBuffer 0 data).onRequestContent ((c.fillBuffer 0 data).mMessageBuffer.take
      (c.fillBuffer 0 data).contentBufferSize) = c.onRequestContent data := by
  have hle : data.length ≤ c.mMessageBuffer.length := by
    rw [hl]
    exact c.contentBufferSize_le
  have hmemory : (c.fillBuffer 0 data).mMessageBuffer =
      data ++ c.mMessageBuffer.drop data.length := by
    simp [fillBuffer, hp, overwrite_zero _ _ hle]
  have hsize : (c.fillBuffer 0 data).contentBufferSize = data.length := by
    rw [hl]
    simp [fillBuffer, hp, contentBufferSize]
  rw [hsize, hmemory, List.take_left]
  simp [fillBuffer, hp, onRequestContent, overwrite_zero _ _ hle, sendResponse, start]

end TcpConnection

theorem nonBlockingRecv1_error (h : nonBlockingRecv1 results = some (.done true k)) : k = 0 := by
  fun_induction nonBlockingRecv1 results <;> simp_all

theorem nonBlockingRecv1_bytes (h : nonBlockingRecv1 results = some (.done false k)) : 1 ≤ k := by
  fun_induction nonBlockingRecv1 results <;> simp_all
  omega

/-- A composed operation ends with an error, with its buffer used up, or with a transfer of
nothing; else it goes on with a transfer of at most 65536 bytes. -/
theorem resume_eq (b : ConsumingBuffer) (ec : Bool) (k : Nat) : resume b ec k = (b.consume k,
    if ec = true ∨ k = 0 ∨ b.size ≤ b.totalConsumed + k then .handler ec (b.totalConsumed + k)
    else .transferSome defaultMaxTransferSize) := by
  cases ec with
  | true => simp [resume, transferAll, ConsumingBuffer.consume]
  | false =>
    by_cases hk : k = 0
    · simp [resume, hk, ConsumingBuffer.consume]
    · by_cases hs : b.size ≤ b.totalConsumed + k <;>
        simp [resume, hk, hs, ConsumingBuffer.consume, ConsumingBuffer.empty, transferAll,
          defaultMaxTransferSize]

namespace AsioSession
variable {x x' : AsioSession} {s s' : Session} {fs fs' : FileSystem} {results : List SysResult}

theorem transferred_ends (h : ec = true ∨ k = 0 ∨ x.buffers.size ≤ x.buffers.totalConsumed + k)
    (fs : FileSystem) : x.transferred ec k fs =
      { x with buffers := x.buffers.consume k }.handler ec fs := by
  simp only [transferred, resume_eq, if_pos h]

theorem transferred_again (hk : k ≠ 0) (h : x.buffers.totalConsumed + k < x.buffers.size)
    (fs : FileSystem) : x.transferred false k fs =
      .next ({ x with buffers := x.buffers.consume k, maxSize := defaultMaxTransferSize }, fs) := by
  have hn : ¬ (false = true ∨ k = 0 ∨ x.buffers.size ≤ x.buffers.totalConsumed + k) := by
    simp [hk]
    omega
  simp only [transferred, resume_eq, if_neg hn]

/-- One try of a read: there is nothing to read, it is not done, or it has taken bytes. -/
theorem perform_read (hn : x.conn.requested = some n) (h : x.perform results fs = .next y) :
    (x.buffers.prepare x.maxSize = 0 ∧ x.transferred false 0 fs = .next y) ∨ y = (x, fs) ∨
    ∃ ec k, x.buffers.prepare x.maxSize ≠ 0 ∧ nonBlockingRecv1 results = some (.done ec k) ∧
      k ≤ x.buffers.prepare x.maxSize ∧ k ≤ x.unread.length ∧
      { x with
        conn := x.conn.fillBuffer x.buffers.totalConsumed (x.unread.take k)
        unread := x.unread.drop k }.transferred ec k fs = .next y := by
  have hread : x.perform results fs = x.recvSome results fs := by
    unfold TcpConnection.requested at hn
    split at hn <;> try cases hn
    all_goals
      rename_i hp
      simp [perform, hp]
  rw [hread, recvSome] at h
  split at h
  · rename_i hz
    exact .inl ⟨hz, h⟩
  · rename_i hz
    split at h
    · cases h
    · cases h
      exact .inr (.inl rfl)
    · rename_i ec k hs
      split at h
      · rename_i hk
        exact .inr (.inr ⟨ec, k, hz, hs, hk.1, hk.2, h⟩)
      · cases h

/-- One try of a write. -/
theorem perform_write (hp : x.conn.pending = some (.sendResponse outcome next))
    (h : x.perform results fs = .next y) :
    (x.buffers.prepare x.maxSize = 0 ∧ x.transferred false 0 fs = .next y) ∨ y = (x, fs) ∨
    ∃ ec k, nonBlockingSend1 results = some (.done ec k) ∧ k ≤ x.buffers.prepare x.maxSize ∧
      (ec = false → 1 ≤ k) ∧
      { x with
        sent := x.sent ++ (x.conn.mMessageBuffer.drop x.buffers.totalConsumed).take k
      }.transferred ec k fs = .next y := by
  simp only [perform, hp, sendSome] at h
  split at h
  · rename_i hz
    exact .inl ⟨hz, h⟩
  · split at h
    · cases h
    · cases h
      exact .inr (.inl rfl)
    · rename_i ec k hs
      split at h
      · rename_i hk
        exact .inr (.inr ⟨ec, k, hs, hk.1, hk.2, h⟩)
      · cases h

/-- A connection as asio works on it, and the same one with reads that come all at once. A
read under way has taken `data`, which the other connection has still to take. -/
inductive Matches (x : AsioSession) (s : Session) : Prop
  | reading (data : Bytes) (hn : s.conn.requested = some n) (hd : data = [] ∨ data.length < n)
      (hc : x.conn = s.conn.fillBuffer 0 data) (hu : s.unread = data ++ x.unread)
      (hb : x.buffers = ⟨n, data.length⟩) (hm : x.maxSize = defaultMaxTransferSize)
  | writing (k : Nat) (hp : s.conn.pending = some (.sendResponse outcome next))
      (hk : k = 0 ∨ k < s.conn.mMessageBuffer.length) (hc : x.conn = s.conn)
      (hu : s.unread = x.unread) (hb : x.buffers = ⟨s.conn.mMessageBuffer.length, k⟩)
      (hm : x.maxSize = defaultMaxTransferSize)
  | finished (hp : s.conn.pending = none) (hc : x.conn.SameButBuffers s.conn)
      (hu : s.unread = x.unread)

theorem Matches.same (h : x.Matches s) : x.conn.SameButBuffers s.conn := by
  cases h with
  | reading data hn hd hc hu hb hm =>
    rw [hc]
    exact TcpConnection.fillBuffer_same _ _ _
  | writing k hp hk hc hu hb hm =>
    rw [hc]
    exact .refl _
  | finished hp hc hu => exact hc

theorem requested_of_pending {c : TcpConnection} (hp : c.pending = some op)
    (hw : ∀ outcome next, op ≠ .sendResponse outcome next) : ∃ n, c.requested = some n := by
  cases op with
  | readPreRequestHeader => exact ⟨16, by simp [TcpConnection.requested, hp]⟩
  | readRequestHeader => exact ⟨24, by simp [TcpConnection.requested, hp]⟩
  | readRequestContent => exact ⟨c.contentBufferSize, by simp [TcpConnection.requested, hp]⟩
  | sendResponse outcome next => exact absurd rfl (hw outcome next)

/-- An operation that has just been started matches whatever it is. -/
theorem started_matches (x : AsioSession) (c : TcpConnection) :
    (x.started c).Matches ⟨c, x.unread⟩ := by
  cases hp : c.pending with
  | none => exact .finished hp (.refl c) rfl
  | some op =>
    cases op with
    | sendResponse outcome next =>
      exact .writing 0 hp (.inl rfl) rfl rfl (by simp [started, TcpConnection.bufferSize, hp]) rfl
    | _ =>
      obtain ⟨n, hn⟩ := requested_of_pending hp (by simp)
      refine .reading [] hn (.inl rfl) c.fillBuffer_nil.symm rfl ?_ rfl
      simp [started, TcpConnection.bufferSize_eq hn]

theorem accepted_matches (mConfig : Config) (stream : Bytes) :
    (accepted mConfig stream).Matches (.accepted mConfig stream) :=
  started_matches (accepted mConfig stream) (.createNew mConfig)

/-- The handler of a read that has filled its buffer is that of one that came all at once. -/
theorem handler_full (h : x.handler false fs = .next (x', fs')) (hn : s.conn.requested = some n)
    (hl : data.length = n) (hc : x.conn = s.conn.fillBuffer 0 data)
    (hu : s.unread = data ++ x.unread) :
    ∃ s', s.complete .ok fs = .next (s', fs') ∧ x'.Matches s' := by
  unfold TcpConnection.requested at hn
  split at hn
  · rename_i hp
    cases hn
    have hfilled := TcpConnection.onPreRequestHeader_filled hp ⟨data, hl⟩
    simp only [handler, hc, TcpConnection.fillBuffer_pending, hp, hfilled] at h
    cases h
    exact ⟨_, Session.complete_ok_preRequestHeader hp ⟨data, hl⟩ hu, started_matches _ _⟩
  · rename_i hp
    cases hn
    have hfilled := TcpConnection.onRequestHeader_filled hp ⟨data, hl⟩
    simp only [handler, hc, TcpConnection.fillBuffer_pending, hp, hfilled] at h
    cases h
    exact ⟨_, Session.complete_ok_requestHeader hp ⟨data, hl⟩ hu, started_matches _ _⟩
  · rename_i hp
    cases hn
    have hfilled := TcpConnection.onRequestContent_filled hp hl
    simp only [handler, hc, TcpConnection.fillBuffer_pending, hp, hfilled] at h
    cases hcontent : s.conn.onRequestContent data with
    | none => simp [hcontent, Outcome.ofOption] at h
    | some c =>
      rw [hcontent] at h
      cases h
      exact ⟨_, Session.complete_ok_requestContent hp hl hu hcontent, started_matches _ _⟩
  · cases hn

theorem handler_error (h : x.handler true fs = .next (x', fs')) (hn : s.conn.requested = some n)
    (hl : data.length < n) (hc : x.conn = s.conn.fillBuffer 0 data)
    (hu : s.unread = data ++ x.unread) :
    ∃ s', s.complete (.error data.length) fs = .next (s', fs') ∧ x'.Matches s' := by
  have hne : s.conn.requested ≠ none := by simp [hn]
  have hfail : s.fail data.length fs = .next (⟨s.conn.finish, x.unread⟩, fs) := by
    simp [Session.fail, hn, hl, hu]
  have hx : x' = x.started x.conn.finish ∧ fs' = fs := by
    have hpending : x.conn.pending = s.conn.pending := by rw [hc, TcpConnection.fillBuffer_pending]
    unfold TcpConnection.requested at hn
    split at hn <;> try cases hn
    all_goals
      rename_i hp
      simp only [handler, hpending, hp, Outcome.next.injEq, Prod.mk.injEq] at h
      exact ⟨h.1.symm, h.2.symm⟩
  obtain ⟨rfl, rfl⟩ := hx
  refine ⟨_, (Session.complete_error hne _ _).trans hfail, ?_⟩
  exact .finished rfl (hc ▸ (s.conn.fillBuffer_same 0 data).finish) rfl

/-- `recv` fails only where the bytes of the peer have run out, and `send` never does. -/
def Orderly (x : AsioSession) (results : List SysResult) : Prop :=
  (x.conn.requested ≠ none → ∀ k, nonBlockingRecv1 results = some (.done true k) →
    x.unread = []) ∧
  (x.conn.requested = none → ∀ k, nonBlockingSend1 results ≠ some (.done true k))

/-- A try of a read is nothing to the connection that reads at once, or all of its read. -/
theorem perform_reading (hn : s.conn.requested = some n) (hd : data = [] ∨ data.length < n)
    (hc : x.conn = s.conn.fillBuffer 0 data) (hu : s.unread = data ++ x.unread)
    (hb : x.buffers = ⟨n, data.length⟩) (hm : x.maxSize = defaultMaxTransferSize)
    (h : x.perform results fs = .next (x', fs')) :
    (x'.Matches s ∧ fs' = fs) ∨ ∃ io s', s.complete io fs = .next (s', fs') ∧ x'.Matches s' ∧
      (x.Orderly results → s.EndOfStream io) := by
  have hreq : x.conn.requested = some n := by rw [hc, TcpConnection.fillBuffer_requested, hn]
  have hsize : x.buffers.prepare x.maxSize = min (n - data.length) defaultMaxTransferSize := by
    rw [hb, hm]
    simp only [ConsumingBuffer.prepare]
    omega
  have hok : s.EndOfStream .ok := fun _ _ _ he => by cases he
  rcases perform_read hreq h with ⟨hz, ht⟩ | he | ⟨ec, k, hz, hres, hk, hlen, ht⟩
  · rw [transferred_ends (.inr (.inl rfl))] at ht
    have hl : data.length = n := by
      rw [hsize] at hz
      simp only [defaultMaxTransferSize] at hz
      rcases hd with rfl | hlt
      · simp only [List.length_nil] at hz ⊢
        omega
      · omega
    obtain ⟨s', hs, hmatch⟩ := handler_full ht hn hl hc hu
    exact .inr ⟨.ok, s', hs, hmatch, fun _ => hok⟩
  · cases he
    exact .inl ⟨.reading data hn hd hc hu hb hm, rfl⟩
  · rw [hsize] at hk hz
    have hlt : data.length < n := by omega
    have htake : (x.unread.take k).length = k := List.length_take_of_le hlen
    have hle : (data ++ x.unread.take k).length ≤ n := by
      rw [List.length_append, htake]
      omega
    have hfill : x.conn.fillBuffer x.buffers.totalConsumed (x.unread.take k) =
        s.conn.fillBuffer 0 (data ++ x.unread.take k) := by
      rw [hc, hb]
      exact TcpConnection.fillBuffer_append hn hle
    have hrest : s.unread = (data ++ x.unread.take k) ++ x.unread.drop k := by
      rw [List.append_assoc, List.take_append_drop, hu]
    cases ec with
    | true =>
      rw [transferred_ends (.inl rfl)] at ht
      obtain rfl := nonBlockingRecv1_error hres
      rw [List.take_zero, List.append_nil] at hrest
      rw [List.take_zero, List.append_nil] at hfill
      obtain ⟨s', hs, hmatch⟩ := handler_error ht hn hlt hfill hrest
      refine .inr ⟨.error data.length, s', hs, hmatch, fun hord n' k' hn' he => ?_⟩
      cases he
      have hnil := hord.1 (by simp [hreq]) 0 hres
      rw [hn] at hn'
      cases hn'
      rw [hu, hnil, List.append_nil]
      exact ⟨hlt, rfl⟩
    | false =>
      have hpos := nonBlockingRecv1_bytes hres
      by_cases hfull : n ≤ data.length + k
      · rw [transferred_ends (.inr (.inr (by rw [hb]; exact hfull)))] at ht
        have hl : (data ++ x.unread.take k).length = n := by
          rw [List.length_append, htake] at hle ⊢
          omega
        obtain ⟨s', hs, hmatch⟩ := handler_full ht hn hl hfill hrest
        exact .inr ⟨.ok, s', hs, hmatch, fun _ => hok⟩
      · rw [transferred_again (by omega) (by rw [hb]; dsimp only; omega)] at ht
        cases ht
        refine .inl ⟨.reading (data ++ x.unread.take k) hn (.inr ?_) hfill hrest ?_ rfl, rfl⟩
        · rw [List.length_append, htake]
          omega
        · rw [hb, ConsumingBuffer.consume, List.length_append, htake]

/-- The handler of a write runs however the write has ended. -/
theorem handler_write (h : x.handler ec fs = .next (x', fs'))
    (hp : s.conn.pending = some (.sendResponse outcome next)) (hc : x.conn = s.conn)
    (hu : s.unread = x.unread) :
    ∃ s', s.complete .ok fs = .next (s', fs') ∧ x'.Matches s' := by
  simp only [handler, hc, hp] at h
  cases hr : s.conn.onResponse next fs with
  | none => simp [hr, Outcome.ofOption] at h
  | some r =>
    rw [hr] at h
    cases h
    refine ⟨⟨r.1, x.unread⟩, ?_, started_matches _ _⟩
    rw [Session.complete_response hp, hr, hu]
    rfl

end AsioSession

section Wire
variable {x x' : AsioSession} {s s' : Session} {fs fs' : FileSystem} {results : List SysResult}

theorem complete_answering (h : s.complete io fs = .next (s', fs')) : s'.conn.Answering := by
  cases hp : s.conn.pending with
  | none => rw [Session.complete_none hp] at h; cases h
  | some op =>
    cases op with
    | readPreRequestHeader =>
      obtain ⟨_, ⟨k, _, rfl⟩ | ⟨buffer, rest, _, rfl⟩⟩ := Session.complete_preRequestHeader hp h
      · intro outcome next hnone
        cases hnone
      · exact onPreRequestHeader_answering _ _
    | readRequestHeader =>
      obtain ⟨_, ⟨k, _, rfl⟩ | ⟨buffer, rest, _, rfl⟩⟩ := Session.complete_requestHeader hp h
      · intro outcome next hnone
        cases hnone
      · intro outcome next hpending
        simp only [TcpConnection.onRequestHeader] at hpending ⊢
        split at hpending
        · cases hpending
        · rename_i hcheck
          cases hpending
          rw [if_neg hcheck]
          rfl
    | readRequestContent =>
      obtain ⟨_, ⟨k, _, rfl⟩ | ⟨bytes, rest, c, _, hc, rfl⟩⟩ :=
        Session.complete_requestContent hp h
      · intro outcome next hnone
        cases hnone
      · exact onRequestContent_answering hc
    | sendResponse outcome next =>
      obtain ⟨c, hc, rfl⟩ := Session.complete_response_next hp h
      intro outcome' next' hpending
      cases next with
      | readRequestHeader => cases hc; cases hpending
      | nothing => cases hc; cases hpending
      | saveHorcruxes =>
        obtain ⟨_, _, he⟩ := Option.bind_eq_some_iff.mp hc
        cases he
        cases hpending

/-- The pending operation is the last one that the connection has started. -/
def TcpConnection.Tracked (c : TcpConnection) : Prop :=
  ∀ op, c.pending = some op → ∃ before, c.trace = before ++ [.started op]

theorem complete_tracked (h : s.complete io fs = .next (s', fs')) : s'.conn.Tracked := by
  intro op hp
  rcases complete_cases h with ⟨_, hn, _⟩ | ⟨op', ht, hp', _⟩ | ⟨_, hn, _⟩
  · rw [hn] at hp
    cases hp
  · rw [hp'] at hp
    cases hp
    exact ⟨_, ht⟩
  · rw [hn] at hp
    cases hp

namespace TcpConnection

/-- The responses whose write has ended. -/
def written (c : TcpConnection) : List Bool :=
  match c.pending with
  | some (.sendResponse _ _) => c.responses.dropLast
  | _ => c.responses

theorem written_of_requested {c : TcpConnection} (hn : c.requested = some n) :
    c.written = c.responses := by
  unfold requested at hn
  split at hn <;> try cases hn
  all_goals
    rename_i hp
    simp [written, hp]

theorem Tracked.responses {c : TcpConnection} (h : c.Tracked)
    (hp : c.pending = some (.sendResponse outcome next)) :
    c.responses = c.written ++ [outcome] := by
  obtain ⟨before, ht⟩ := h _ hp
  have hr : c.responses = responsesOf before ++ [outcome] := by
    rw [TcpConnection.responses, ht, responsesOf_append]
    rfl
  simp [written, hp, hr]

end TcpConnection

/-- When an operation ends, all responses so far are written. -/
theorem complete_written (h : s.complete io fs = .next (s', fs')) :
    s'.conn.written = s.conn.responses := by
  rcases complete_cases h with ⟨ht, hn, _⟩ | ⟨op, ht, hp, _⟩ | ⟨ht, hn, _⟩
  · simp [TcpConnection.written, hn, TcpConnection.responses, ht]
  · cases op <;>
      simp [TcpConnection.written, hp, TcpConnection.responses, ht, responsesOf_append,
        responsesOf]
  · simp [TcpConnection.written, hn, TcpConnection.responses, ht, responsesOf_append, responsesOf]

namespace AsioSession

theorem handler_next (h : x.handler ec fs = .next (x', fs')) : ∃ c, x' = x.started c := by
  unfold handler at h
  split at h
  · cases h
  · rename_i next _
    cases hr : x.conn.onResponse next fs with
    | none => simp [hr, Outcome.ofOption] at h
    | some r =>
      rw [hr] at h
      cases h
      exact ⟨_, rfl⟩
  · cases h; exact ⟨_, rfl⟩
  · cases h; exact ⟨_, rfl⟩
  · cases h; exact ⟨_, rfl⟩
  · cases hr : x.conn.onRequestContent (x.conn.mMessageBuffer.take x.conn.contentBufferSize) with
    | none => simp [hr, Outcome.ofOption] at h
    | some c =>
      rw [hr] at h
      cases h
      exact ⟨_, rfl⟩

/-- What of the response at hand has been sent. -/
def current (x : AsioSession) : Bytes :=
  match x.conn.pending with
  | some (.sendResponse _ _) => x.conn.mMessageBuffer.take x.buffers.totalConsumed
  | _ => []

theorem current_started (x : AsioSession) (c : TcpConnection) : (x.started c).current = [] := by
  unfold current started
  split
  · exact List.take_zero
  · rfl

theorem transferred_next (h : x.transferred ec k fs = .next (x', fs')) : x'.sent = x.sent ∧
    (x'.current = [] ∨ x'.conn = x.conn ∧ x'.buffers = x.buffers.consume k) := by
  by_cases hend : ec = true ∨ k = 0 ∨ x.buffers.size ≤ x.buffers.totalConsumed + k
  · rw [transferred_ends hend] at h
    obtain ⟨c, rfl⟩ := handler_next h
    exact ⟨rfl, .inl (current_started _ c)⟩
  · simp only [not_or, not_le, Bool.not_eq_true] at hend
    obtain ⟨rfl, hk, hlt⟩ := hend
    rw [transferred_again hk hlt] at h
    cases h
    exact ⟨rfl, .inr ⟨rfl, rfl⟩⟩

theorem current_of_requested (hn : x.conn.requested = some n) : x.current = [] := by
  unfold TcpConnection.requested at hn
  split at hn <;> try cases hn
  all_goals
    rename_i hp
    simp [current, hp]

/-- A read sends nothing. -/
theorem perform_read_sent (hn : x.conn.requested = some n)
    (h : x.perform results fs = .next (x', fs')) : x'.sent = x.sent ∧ x'.current = [] := by
  rcases perform_read hn h with ⟨_, ht⟩ | he | ⟨ec, k, _, _, _, _, ht⟩
  · obtain ⟨hsent, hcur | ⟨hc, _⟩⟩ := transferred_next ht
    · exact ⟨hsent, hcur⟩
    · exact ⟨hsent, current_of_requested (n := n) (by rw [hc, hn])⟩
  · cases he
    exact ⟨rfl, current_of_requested hn⟩
  · obtain ⟨hsent, hcur | ⟨hc, _⟩⟩ := transferred_next ht
    · exact ⟨hsent, hcur⟩
    · refine ⟨hsent, current_of_requested (n := n) ?_⟩
      rw [hc, TcpConnection.fillBuffer_requested, hn]

/-- A try of a write hands over some more of the response, and the handler runs when all of
it is over or when `send` has failed. -/
theorem perform_writing (hp : s.conn.pending = some (.sendResponse outcome next))
    (hk : k < s.conn.mMessageBuffer.length) (hc : x.conn = s.conn)
    (hu : s.unread = x.unread) (hb : x.buffers = ⟨s.conn.mMessageBuffer.length, k⟩)
    (hm : x.maxSize = defaultMaxTransferSize) (h : x.perform results fs = .next (x', fs')) :
    ∃ more, x'.sent = x.sent ++ more ∧
      ((x'.Matches s ∧ fs' = fs ∧ x'.current = x.current ++ more) ∨
        ∃ s', s.complete .ok fs = .next (s', fs') ∧ x'.Matches s' ∧ x'.current = [] ∧
          x.current ++ more <+: s.conn.mMessageBuffer ∧
          (x.current ++ more = s.conn.mMessageBuffer ∨
            ∃ j, nonBlockingSend1 results = some (.done true j))) := by
  have hp' : x.conn.pending = some (.sendResponse outcome next) := by rw [hc, hp]
  have hcur : x.current = s.conn.mMessageBuffer.take k := by
    simp [current, hc, hp, hb]
  rcases perform_write hp' h with ⟨hz, _⟩ | he | ⟨ec, j, hres, hj, hpos, ht⟩
  · rw [hb, hm] at hz
    simp only [ConsumingBuffer.prepare, defaultMaxTransferSize] at hz
    omega
  · cases he
    refine ⟨[], by simp, .inl ⟨.writing k hp (.inr hk) hc hu hb hm, rfl, by simp⟩⟩
  · have hmore : x.current ++ (s.conn.mMessageBuffer.drop k).take j =
        s.conn.mMessageBuffer.take (k + j) := by
      rw [hcur, List.take_add]
    rw [hc, hb] at ht
    refine ⟨(s.conn.mMessageBuffer.drop k).take j, (transferred_next ht).1, ?_⟩
    by_cases hend : ec = true ∨ j = 0 ∨ s.conn.mMessageBuffer.length ≤ k + j
    · rw [transferred_ends (by exact hend)] at ht
      obtain ⟨s', hs, hmatch⟩ := handler_write ht hp rfl hu
      obtain ⟨c, rfl⟩ := handler_next ht
      refine .inr ⟨s', hs, hmatch, current_started _ c, ?_, ?_⟩
      · rw [hmore]
        exact List.take_prefix _ _
      · cases ec with
        | true => exact .inr ⟨j, hres⟩
        | false =>
          have hj1 := hpos rfl
          left
          rw [hmore]
          apply List.take_of_length_le
          rcases hend with he | he | he
          · cases he
          · omega
          · exact he
    · simp only [not_or, not_le, Bool.not_eq_true] at hend
      obtain ⟨rfl, hj0, hlt⟩ := hend
      rw [transferred_again hj0 (by exact hlt)] at ht
      cases ht
      refine .inl ⟨.writing (k + j) hp (.inr hlt) rfl hu rfl rfl, rfl, ?_⟩
      rw [hmore]
      simp [current, hp, ConsumingBuffer.consume]

/-- What is sent is, for each response in its turn, the bytes that `part` allows for it. -/
def Wired (part : Bytes → Bool → Prop) (x : AsioSession) (c : TcpConnection) : Prop :=
  ∃ parts, List.Forall₂ part parts c.written ∧ x.sent = parts.flatten ++ x.current

/-- A connection at work, the one that reads and writes at once, and what was sent. -/
structure Linked (part : Bytes → Bool → Prop) (x : AsioSession) (s : Session) : Prop where
  matched : x.Matches s
  answering : s.conn.Answering
  tracked : s.conn.Tracked
  wired : x.Wired part s.conn

/-- One try of a transfer is one completion of the connection that reads and writes at
once, or none. -/
theorem Linked.perform {part : Bytes → Bool → Prop} (h : x.Linked part s)
    (hwhole : ∀ outcome, part (response outcome) outcome)
    (hcut : (∃ j, nonBlockingSend1 results = some (.done true j)) → x.conn.requested = none →
      ∀ p outcome, p <+: response outcome → part p outcome)
    (hs : x.perform results fs = .next (x', fs')) :
    (x'.Linked part s ∧ fs' = fs) ∨ ∃ io s', s.complete io fs = .next (s', fs') ∧
      x'.Linked part s' ∧ (x.Orderly results → s.EndOfStream io) := by
  obtain ⟨hmatch, hans, htr, parts, hparts, hsent⟩ := h
  cases hmatch with
  | @reading n data hn hd hc hu hb hm =>
    have hreq : x.conn.requested = some n := by rw [hc, TcpConnection.fillBuffer_requested, hn]
    obtain ⟨hsent', hcur'⟩ := perform_read_sent hreq hs
    rw [current_of_requested hreq] at hsent
    rcases perform_reading hn hd hc hu hb hm hs with ⟨hsame, hfs⟩ | ⟨io, s', hcomp, hm', hord⟩
    · refine .inl ⟨⟨hsame, hans, htr, parts, hparts, ?_⟩, hfs⟩
      rw [hsent', hcur', hsent]
    · refine .inr ⟨io, s', hcomp, ⟨hm', complete_answering hcomp, complete_tracked hcomp, parts,
        ?_, ?_⟩, hord⟩
      · rwa [complete_written hcomp, ← TcpConnection.written_of_requested hn]
      · rw [hsent', hcur', hsent]
  | @writing outcome next k hp hk hc hu hb hm =>
    have hbuffer := hans _ _ hp
    have hlt : k < s.conn.mMessageBuffer.length := by
      rcases hk with rfl | hk
      · simp [hbuffer, length_response]
      · exact hk
    have hnone : x.conn.requested = none := by simp [hc, TcpConnection.requested, hp]
    obtain ⟨more, hsent', ⟨hsame, hfs, hcur'⟩ | ⟨s', hcomp, hm', hcur', hpre, hall⟩⟩ :=
      perform_writing hp hlt hc hu hb hm hs
    · refine .inl ⟨⟨hsame, hans, htr, parts, hparts, ?_⟩, hfs⟩
      rw [hsent', hcur', hsent, List.append_assoc]
    · refine .inr ⟨.ok, s', hcomp, ⟨hm', complete_answering hcomp, complete_tracked hcomp,
        parts ++ [x.current ++ more], ?_, ?_⟩, fun _ _ _ _ he => by cases he⟩
      · rw [complete_written hcomp, htr.responses hp]
        refine List.rel_append hparts (.cons ?_ .nil)
        rw [hbuffer] at hpre hall
        rcases hall with he | he
        · rw [he]
          exact hwhole outcome
        · exact hcut he hnone _ _ hpre
      · rw [hsent', hsent, hcur']
        simp
  | finished hp hc hu =>
    have hnone : x.conn.pending = none := hc.pending.trans hp
    simp [AsioSession.perform, hnone] at hs

theorem accepted_linked (part : Bytes → Bool → Prop) (mConfig : Config) (stream : Bytes) :
    (accepted mConfig stream).Linked part (.accepted mConfig stream) := by
  refine ⟨accepted_matches mConfig stream, ?_, ?_, [], .nil, rfl⟩
  · intro outcome next hp
    cases hp
  · intro op hp
    cases hp
    exact ⟨[], rfl⟩

theorem Matches.unread (h : x.Matches s) : x.unread <:+ s.unread := by
  cases h with
  | reading data hn hd hc hu hb hm =>
    rw [hu]
    exact List.suffix_append _ _
  | writing k hp hk hc hu hb hm => exact hu ▸ List.suffix_refl _
  | finished hp hc hu => exact hu ▸ List.suffix_refl _

/-- Every response issued so far has a prefix of its own in what was sent. -/
theorem Linked.sent (h : x.Linked (fun p outcome => p <+: response outcome) s) :
    ∃ parts, List.Forall₂ (fun p outcome => p <+: response outcome) parts x.conn.responses ∧
      x.sent = parts.flatten := by
  obtain ⟨hmatch, hans, htr, parts, hparts, hsent⟩ := h
  have hresponses : x.conn.responses = s.conn.responses :=
    congrArg responsesOf hmatch.same.trace
  rw [hresponses]
  cases hmatch with
  | @reading n data hn hd hc hu hb hm =>
    have hreq : x.conn.requested = some n := by rw [hc, TcpConnection.fillBuffer_requested, hn]
    refine ⟨parts, by rwa [← TcpConnection.written_of_requested hn], ?_⟩
    rw [hsent, current_of_requested hreq, List.append_nil]
  | @writing outcome next k hp hk hc hu hb hm =>
    refine ⟨parts ++ [x.current], ?_, by simp [hsent]⟩
    rw [htr.responses hp]
    refine List.rel_append hparts (.cons ?_ .nil)
    rw [← hans _ _ hp, current, hc, hp]
    exact List.take_prefix _ _
  | finished hp hc hu =>
    have hnone : x.conn.pending = none := hc.pending.trans hp
    refine ⟨parts, by simpa [TcpConnection.written, hp] using hparts, ?_⟩
    simp [hsent, current, hnone]

end AsioSession
end Wire

namespace AsioServer
variable {ι : Type} {mConfig : Config} {incoming : ι → Bytes} {fs : FileSystem}
  {os : AsioSession → List SysResult → Prop} {io : Session → Io → Prop}
  {part : Bytes → Bool → Prop} {srv : AsioServer ι} {acts : List (Act ι)}

/-- The server above the system calls and the one whose reads and writes come at once have
the same files, and their connections are linked one by one. -/
structure Matches (part : Bytes → Bool → Prop) (srv : AsioServer ι) (t : TcpServer ι) :
    Prop where
  fs : srv.fs = t.fs
  connections : ∀ i, Option.Rel (AsioSession.Linked part) (srv.connections i) (t.connections i)

theorem listening_matches (part : Bytes → Bool → Prop) (fs : FileSystem) :
    Matches part (listening fs : AsioServer ι) (.listening fs) :=
  ⟨rfl, fun _ => .none⟩

theorem Matches.exists_linked {t : TcpServer ι} (h : Matches part srv t)
    (hx : srv.connections i = some x) : ∃ s, t.connections i = some s ∧ x.Linked part s := by
  have hrel := h.connections i
  rw [hx] at hrel
  generalize t.connections i = o at hrel
  cases hrel with
  | some hl => exact ⟨_, rfl, hl⟩

variable [DecidableEq ι]

theorem Matches.update {t : TcpServer ι} (h : Matches part srv t) (i : ι)
    (hl : AsioSession.Linked part x s) (fs : FileSystem) :
    Matches part ⟨fs, Function.update srv.connections i (some x)⟩
      ⟨fs, Function.update t.connections i (some s)⟩ := by
  refine ⟨rfl, fun j => ?_⟩
  by_cases hj : j = i
  · subst hj
    simp only [Function.update_self]
    exact .some hl
  · simpa [Function.update_of_ne hj] using h.connections j

/-- The refinement, for all that `os` lets the system calls do. What of it breaks off a
response has to be in `part`, and what of it breaks off a stream in `io`. -/
theorem refines (hwhole : ∀ outcome, part (response outcome) outcome)
    (hcut : ∀ x results, os x results → (∃ j, nonBlockingSend1 results = some (.done true j)) →
      x.conn.requested = none → ∀ p outcome, p <+: response outcome → part p outcome)
    (hio : ∀ x s results r, os x results → (x.Orderly results → s.EndOfStream r) → io s r) :
    Agents.Refines (Step mConfig incoming os) (TcpServer.Step mConfig incoming io)
      (Matches part) := by
  intro act srv srv' t hm hs
  cases hs with
  | accept hnone =>
    rename_i i error
    cases error with
    | true => exact ⟨[], t, .nil, hm⟩
    | false =>
      have hrel := hm.connections i
      rw [hnone] at hrel
      refine ⟨[i], _, .single (.accept ?_), ?_⟩
      · generalize t.connections i = o at hrel
        cases hrel
        rfl
      · rw [TcpServer.handleAccept, ← hm.fs]
        exact hm.update i (AsioSession.accepted_linked _ _ _) _
  | perform hx hos hp =>
    rename_i x results x' fs' i
    obtain ⟨s, hs, hl⟩ := hm.exists_linked hx
    rcases hl.perform hwhole (hcut x results hos) hp with ⟨hl', hfs⟩ | ⟨r, s', hcomp, hl', hend⟩
    · refine ⟨[], t, .nil, ?_⟩
      have hupdate := hm.update i hl' fs'
      rw [← hs, Function.update_eq_self] at hupdate
      exact ⟨hfs.trans hm.fs, hupdate.connections⟩
    · rw [hm.fs] at hcomp
      exact ⟨[i], _, .single (.handler hs (hio x s results r hos hend) hcomp), hm.update i hl' fs'⟩

/-- The refinement, for whatever the system calls return. -/
theorem refines_any : Agents.Refines (Step mConfig incoming os)
    (TcpServer.Step mConfig incoming fun _ _ => True)
    (Matches fun p outcome => p <+: response outcome) :=
  refines (fun _ => List.prefix_refl _) (fun _ _ _ _ _ _ _ h => h) fun _ _ _ _ _ _ => trivial

/-- Whatever the system calls return and however they cut the streams, the server does what
it does when every read and write comes all at once. -/
theorem segmented_run_refines
    (h : Agents.Schedule (Step mConfig incoming os) acts (listening fs) srv) :
    ∃ is t, Agents.Schedule (TcpServer.Step mConfig incoming fun _ _ => True) is
        (.listening fs) t ∧ t.fs = srv.fs ∧
      ∀ i, Option.Rel (fun x s => x.conn.SameButBuffers s.conn ∧ x.unread <:+ s.unread)
        (srv.connections i) (t.connections i) := by
  obtain ⟨is, t, ht, hm⟩ := refines_any.run (listening_matches _ fs) h
  refine ⟨is, t, ht, hm.fs.symm, fun i => ?_⟩
  have hrel := hm.connections i
  generalize srv.connections i = a at hrel ⊢
  generalize t.connections i = b at hrel ⊢
  cases hrel with
  | none => exact .none
  | some hl => exact .some ⟨hl.matched.same, hl.matched.unread⟩

/-- A failed accept, and a pre-request that arrives in two pieces. -/
def piecemeal : List (Act Unit) :=
  [.accept () true, .accept () false, .perform () [.bytes 5], .perform () [.wouldBlock],
    .perform () [.interrupted, .bytes 11], .perform () [.bytes 3]]

theorem piecemeal_run : ∃ srv x, srv.connections () = some x ∧ x.sent = [83, 85, 67] ∧
    Agents.Schedule (Step {} (fun _ => sampleStream) fun _ _ => True) piecemeal
      (listening (outDirectory [])) srv :=
  ⟨_, _, rfl, rfl, .cons (.accept rfl) (.cons (.accept rfl) (.cons (.perform rfl trivial rfl)
    (.cons (.perform rfl trivial rfl) (.cons (.perform rfl trivial rfl)
      (.cons (.perform rfl trivial rfl) .nil)))))⟩

theorem segmented_run_refines_sample : ∃ (srv : AsioServer Unit) (is : List Unit)
    (t : TcpServer Unit), Agents.Schedule (TcpServer.Step {} (fun _ => sampleStream)
      fun _ _ => True) is (.listening (outDirectory [])) t ∧ t.fs = srv.fs := by
  obtain ⟨srv, _, _, _, h⟩ := piecemeal_run
  obtain ⟨is, t, ht, hfs, _⟩ := segmented_run_refines h
  exact ⟨srv, is, t, ht, hfs⟩

/-- All that any client can ever see of the server: for each response that its connection
has issued, in their order, a prefix of SUCCESS or of FAILURE. -/
theorem sent_responses (h : Agents.Schedule (Step mConfig incoming os) acts (listening fs) srv)
    (i : ι) (x : AsioSession) (hx : srv.connections i = some x) :
    ∃ parts, List.Forall₂ (fun p outcome => p <+: response outcome) parts x.conn.responses ∧
      x.sent = parts.flatten := by
  obtain ⟨is, t, _, hm⟩ := refines_any.run (listening_matches _ fs) h
  obtain ⟨s, _, hl⟩ := hm.exists_linked hx
  exact hl.sent

theorem sent_responses_sample : ∃ parts outcomes,
    List.Forall₂ (fun p outcome => p <+: response outcome) parts outcomes ∧
      [83, 85, 67] = parts.flatten := by
  obtain ⟨_, x, hx, hsent, h⟩ := piecemeal_run
  obtain ⟨parts, hparts, he⟩ := sent_responses h () x hx
  exact ⟨parts, _, hparts, hsent.symm.trans he⟩

end AsioServer

section Segmentation
variable {mConfig : Config} {stream : Bytes} {fs : FileSystem} {x y : AsioSession × FileSystem}

/-- The connection reads and writes at once, and its reads fail only at the end of the
stream. -/
def Session.Advance (_ : Unit) (x y : Session × FileSystem) : Prop :=
  ∃ io, x.1.EndOfStream io ∧ Session.Step io x y

theorem Session.advance_independent : Agents.Independent Session.Advance fun _ => True where
  keeps _ _ := trivial
  det := by
    intro x _ y z _ hy hz
    obtain ⟨io, hio, hy⟩ := hy
    obtain ⟨io', hio', hz⟩ := hz
    exact Session.complete_det hio hio' hy hz
  commute _ hne := absurd rfl hne

theorem Session.advance_stuck {x : Session × FileSystem} (hp : x.1.conn.pending = none) :
    Agents.Stuck Session.Advance x := by
  intro _ y hy
  obtain ⟨io, _, hs⟩ := hy
  cases (Session.complete_none hp io x.2).symm.trans hs

/-- One try of a transfer where `recv` fails only at the end of the stream. -/
def AsioSession.OrderlyStep (results : List SysResult) (x y : AsioSession × FileSystem) : Prop :=
  AsioSession.Step results x y ∧ x.1.Orderly results

theorem AsioSession.orderly_refines : Agents.Refines AsioSession.OrderlyStep Session.Advance
    fun x y => x.1.Linked (fun p outcome => p = response outcome) y.1 ∧ x.2 = y.2 := by
  intro results x x' y hxy hs
  obtain ⟨x, fs⟩ := x
  obtain ⟨x', fs'⟩ := x'
  obtain ⟨s, gs⟩ := y
  obtain ⟨hl, rfl⟩ := hxy
  have hcut : (∃ j, nonBlockingSend1 results = some (.done true j)) → x.conn.requested = none →
      ∀ p outcome, p <+: response outcome → p = response outcome := by
    intro hsend hnone
    obtain ⟨j, hj⟩ := hsend
    exact absurd hj (hs.2.2 hnone j)
  rcases hl.perform (fun _ => rfl) hcut hs.1 with ⟨hl', hfs⟩ | ⟨io, s', hcomp, hl', hend⟩
  · exact ⟨[], _, .nil, hl', hfs⟩
  · exact ⟨[()], (s', fs'), .single ⟨io, hend hs.2, hcomp⟩, hl', rfl⟩

/-- A connection that has ended has sent its responses, byte for byte. -/
theorem AsioSession.Linked.sent_all {x : AsioSession} {s : Session}
    (h : x.Linked (fun p outcome => p = response outcome) s) (hp : x.conn.pending = none) :
    x.sent = x.conn.responses.flatMap response := by
  obtain ⟨hmatch, _, _, parts, hparts, hsent⟩ := h
  have hp' : s.conn.pending = none := hmatch.same.pending.symm.trans hp
  have hresponses : x.conn.responses = s.conn.responses :=
    congrArg responsesOf hmatch.same.trace
  have hall : parts = s.conn.written.map response := by
    rwa [← List.forall₂_map_right_iff (f := response), List.forall₂_eq_eq_eq] at hparts
  rw [hsent, hall, hresponses]
  simp [TcpConnection.written, hp', AsioSession.current, hp, List.flatMap]

theorem AsioSession.Matches.unread_eq {x : AsioSession} {s : Session} (h : x.Matches s)
    (hp : x.conn.pending = none) : x.unread = s.unread := by
  have hp' : s.conn.pending = none := h.same.pending.symm.trans hp
  cases h with
  | reading data hn => simp [TcpConnection.requested, hp'] at hn
  | writing k hw => simp [hp'] at hw
  | finished _ _ hu => exact hu.symm

/-- How TCP cuts the stream of a client makes no difference: two connections that were sent
the same bytes, and have come to their end without a broken socket, have the same members
but for stale buffers, the same bytes left over, the same files and have answered with the
same bytes. -/
theorem segmentation_independent
    (hx : Agents.Schedule AsioSession.OrderlyStep rs (.accepted mConfig stream, fs) x)
    (hy : Agents.Schedule AsioSession.OrderlyStep rs' (.accepted mConfig stream, fs) y)
    (hpx : x.1.conn.pending = none) (hpy : y.1.conn.pending = none) :
    x.1.conn.SameButBuffers y.1.conn ∧ x.1.unread = y.1.unread ∧ x.2 = y.2 ∧
      x.1.sent = y.1.sent ∧ x.1.sent = x.1.conn.responses.flatMap response := by
  have hstart : (AsioSession.accepted mConfig stream).Linked
      (fun p outcome => p = response outcome) (.accepted mConfig stream) :=
    AsioSession.accepted_linked _ _ _
  obtain ⟨us, t, ht, hlt, hft⟩ := AsioSession.orderly_refines.run
    (t := (Session.accepted mConfig stream, fs)) ⟨hstart, rfl⟩ hx
  obtain ⟨vs, u, hu, hlu, hfu⟩ := AsioSession.orderly_refines.run
    (t := (Session.accepted mConfig stream, fs)) ⟨hstart, rfl⟩ hy
  have htend := Session.advance_stuck (hlt.matched.same.pending.symm.trans hpx)
  have huend := Session.advance_stuck (hlu.matched.same.pending.symm.trans hpy)
  obtain rfl := Session.advance_independent.unique trivial ht htend hu huend
  have hsame : x.1.conn.SameButBuffers y.1.conn :=
    hlt.matched.same.trans hlu.matched.same.symm
  refine ⟨hsame, ?_, hft.trans hfu.symm, ?_, hlt.sent_all hpx⟩
  · rw [hlt.matched.unread_eq hpx, hlu.matched.unread_eq hpy]
  · rw [hlt.sent_all hpx, hlu.sent_all hpy, TcpConnection.responses, hsame.trace,
      TcpConnection.responses]

/-- The sample stream as its messages come whole, and in smaller pieces. -/
def wholeReads : List (List SysResult) :=
  [[.bytes 16], [.bytes 7], [.bytes 24], [.bytes 2], [.bytes 7]]

def cutReads : List (List SysResult) :=
  [[.bytes 5], [.wouldBlock], [.interrupted, .bytes 11], [.bytes 3], [.bytes 4], [.bytes 20],
    [.bytes 4], [.bytes 1], [.bytes 1], [.bytes 7]]

theorem orderly_bytes (x : AsioSession) (n : Nat) : x.Orderly [.bytes (n + 1)] := by
  simp [AsioSession.Orderly, nonBlockingRecv1, nonBlockingSend1]

theorem segmentation_independent_sample : ∃ x y : AsioSession × FileSystem,
    Agents.Schedule AsioSession.OrderlyStep wholeReads
      (.accepted {} sampleStream, outDirectory []) x ∧
    Agents.Schedule AsioSession.OrderlyStep cutReads
      (.accepted {} sampleStream, outDirectory []) y ∧
    x.1.sent = response true ++ response true ∧ x.1.sent = y.1.sent ∧ x.2 = y.2 := by
  have hbytes : ∀ {x y : AsioSession × FileSystem} n, AsioSession.Step [.bytes (n + 1)] x y →
      AsioSession.OrderlyStep [.bytes (n + 1)] x y := fun n h => ⟨h, orderly_bytes _ n⟩
  have hx : Agents.Schedule AsioSession.OrderlyStep wholeReads
      (.accepted {} sampleStream, outDirectory []) _ :=
    .cons (hbytes _ rfl) (.cons (hbytes _ rfl) (.cons (hbytes _ rfl) (.cons (hbytes _ rfl)
      (.cons (hbytes _ rfl) .nil))))
  have hy : Agents.Schedule AsioSession.OrderlyStep cutReads
      (.accepted {} sampleStream, outDirectory []) _ :=
    .cons (hbytes _ rfl)
      (.cons ⟨rfl, by simp [nonBlockingRecv1], by simp [nonBlockingSend1]⟩
        (.cons ⟨rfl, by simp [nonBlockingRecv1], by simp [nonBlockingSend1]⟩
          (.cons (hbytes _ rfl) (.cons (hbytes _ rfl) (.cons (hbytes _ rfl) (.cons (hbytes _ rfl)
            (.cons (hbytes _ rfl) (.cons (hbytes _ rfl) (.cons (hbytes _ rfl) .nil)))))))))
  obtain ⟨_, _, hfs, hsent, _⟩ := segmentation_independent hx hy rfl rfl
  exact ⟨_, _, hx, hy, rfl, hsent, hfs⟩

end Segmentation
end Horcrux
