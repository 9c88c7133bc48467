import Horcrux.Proofs.Grammar

namespace Horcrux
open Save Utils

namespace TcpConnection

/-- The total length of the stored contents. -/
def storedSize (c : TcpConnection) : Nat :=
  Slots.total (fun hcx : HorcruxData => hcx.mContent.length) c.mCurrentRequestHorcruxes

/-- The announced length of the content that is being read. -/
def incomingSize (c : TcpConnection) : Nat :=
  if c.pending = some .readRequestContent then c.mRequestHeader.mContentSize.toNat else 0

/-- All horcruxes are there: the connection is about to save them, or has saved them. -/
def Completed (c : TcpConnection) : Prop :=
  (∃ outcome, c.pending = some (.sendResponse outcome .saveHorcruxes)) ∨ .saved ∈ c.trace

/-- The announced and configured limits bind what the connection holds and reads. -/
structure WithinLimits (mConfig : Config) (c : TcpConnection) : Prop where
  announced : c.storedSize + c.incomingSize ≤ c.mPreRequestHeader.mTotalSize.toNat
  configured : c.mPreRequestHeader.mTotalSize.toNat ≤ mConfig.mMaxTotalSizeAccepted.toNat
  complete : c.Completed → c.storedSize = c.mPreRequestHeader.mTotalSize.toNat

end TcpConnection

namespace Upload
variable {mConfig : Config}

/-- The sum of the sizes that the headers of the messages declare. -/
def declared (u : Upload mConfig) : Nat :=
  (u.messages.map fun m => m.head.mContentSize.toNat).sum

def total (u : Upload mConfig) : Nat := u.announced.mTotalSize.toNat

end Upload

/-- The size fields that the server reads off the stream add up: the headers never
declare more than the pre-request announces, and all together declare exactly that. -/
structure HonestSizes (mConfig : Config) (stream : Bytes) : Prop where
  messages : ∀ (u : Upload mConfig) rest, stream = u.bytes ++ rest → u.declared ≤ u.total
  header : ∀ (u : Upload mConfig) (header : CharArray 24) rest,
    stream = u.bytes ++ (header.val ++ rest) → u.Admits (deserializeHeader header) →
    u.declared + (deserializeHeader header : Request.Header).mContentSize.toNat ≤ u.total
  complete : ∀ (u : Upload mConfig) rest, stream = u.bytes ++ rest → u.Complete →
    u.declared = u.total

section Limits
variable {mConfig : Config} {stream rest : Bytes} {c : TcpConnection} {u : Upload mConfig}
  {s : Session} {fs : FileSystem}

/-- The server stores what the headers declare. -/
theorem TcpConnection.Receives.storedSize (hr : c.Receives u) : c.storedSize = u.declared := by
  rw [TcpConnection.storedSize, hr.slots, Upload.slots]
  apply (u.fits.total_fill _).trans
  rw [List.map_map, Upload.declared]
  congr 1
  apply List.map_congr_left
  intro m hm
  exact u.length m hm

theorem TcpConnection.Receives.total (hr : c.Receives u) :
    c.mPreRequestHeader.mTotalSize.toNat = u.total := by
  rw [hr.header]
  rfl

theorem Situation.completed_upload (h : Situation mConfig stream s) (hc : s.conn.Completed) :
    ∃ u : Upload mConfig, s.conn.Receives u ∧ u.Complete ∧ stream = u.bytes ++ s.unread := by
  rcases hc with ⟨outcome, hp⟩ | ht
  · obtain ⟨u, hr, hc, hx, _⟩ := h.save_pending hp
    exact ⟨u, hr, hc, hx⟩
  · obtain ⟨u, hr, hc, hx, _⟩ := h.saved_upload ht
    exact ⟨u, hr, hc, hx⟩

theorem Situation.within_limits (h : Situation mConfig stream s) (ha : s.conn.Accepted)
    (hs : HonestSizes mConfig stream) : s.conn.WithinLimits mConfig := by
  have hupload : ∃ (u : Upload mConfig) (rest : Bytes), s.conn.Receives u ∧
      stream = u.bytes ++ rest := by
    rcases h.upload with ⟨_, he | he⟩ | ⟨u, rest, hr, hx, _⟩
    · simp [TcpConnection.Accepted, he] at ha
    · simp [TcpConnection.Accepted, he] at ha
    · exact ⟨u, rest, hr, hx⟩
  obtain ⟨u, rest, hr, hx⟩ := hupload
  refine ⟨?_, ?_, ?_⟩
  · by_cases hp : s.conn.pending = some .readRequestContent
    · obtain ⟨v, header, hv, hadm, hxv, hh⟩ := h.pending hp
      rw [TcpConnection.incomingSize, if_pos hp, hv.storedSize, hv.total, hh]
      exact hs.header v header _ hxv hadm
    · rw [TcpConnection.incomingSize, if_neg hp, hr.storedSize, hr.total]
      exact hs.messages u rest hx
  · rw [hr.total]
    exact u.size
  · intro hc
    obtain ⟨v, hv, hcomplete, hxv⟩ := h.completed_upload hc
    rw [hv.storedSize, hv.total]
    exact hs.complete v _ hxv hcomplete

/-- A connection that answers an upload with SUCCESS has accepted its pre-request. -/
theorem Situation.accepted_of_success (h : Situation mConfig stream s)
    (hp : s.conn.pending = some (.sendResponse true next)) : s.conn.Accepted := by
  cases next with
  | readRequestHeader | saveHorcruxes =>
    obtain ⟨_, _, _, _, ha⟩ := h.pending hp
    exact ha
  | nothing => exact False.elim (h.pending hp)

/-- Every upload that the stream starts with is reached, and accepted. -/
theorem reach_accepted (u : Upload mConfig) (rest : Bytes) (fs : FileSystem) :
    ∃ c, Session.Reachable mConfig (u.bytes ++ rest) fs (⟨c, rest⟩, fs) ∧ c.Receives u ∧
      c.pending = some (.sendResponse true u.next) ∧ c.Accepted := by
  obtain ⟨n, c, hrun, hr, hp⟩ := reach_upload u rest fs
  have hx : Session.Reachable mConfig (u.bytes ++ rest) fs (⟨c, rest⟩, fs) := ⟨_, hrun⟩
  exact ⟨c, hx, hr, hp, (Situation.of_reachable hx).accepted_of_success hp⟩

/-- The limits bind the whole upload exactly when the peer's own size fields add up: no
handler compares the size of a request with what was announced. -/
theorem size_limits_iff (mConfig : Config) (stream : Bytes) (fs : FileSystem) :
    (∀ x, Session.Reachable mConfig stream fs x → x.1.conn.Accepted →
      x.1.conn.WithinLimits mConfig) ↔ HonestSizes mConfig stream := by
  constructor
  · intro h
    refine ⟨?_, ?_, ?_⟩
    · intro u rest hx
      subst hx
      obtain ⟨c, hreach, hr, hp, ha⟩ := reach_accepted u rest fs
      have hle := (h _ hreach ha).announced
      rw [hr.storedSize, hr.total] at hle
      omega
    · intro u header rest hx hadm
      subst hx
      obtain ⟨c, hreach, hr, hp, ha⟩ := reach_accepted u (header.val ++ rest) fs
      rw [Upload.next, if_neg hadm.not_complete] at hp
      obtain ⟨c', hrun, hr', hp', hh, _⟩ := receive_header hr hp header hadm rest fs
      have hle := (h _ (hreach.trans hrun) (accepted_kept hrun ha)).announced
      rw [TcpConnection.incomingSize, if_pos hp', hr'.storedSize, hr'.total, hh] at hle
      exact hle
    · intro u rest hx hc
      subst hx
      obtain ⟨c, hreach, hr, hp, ha⟩ := reach_accepted u rest fs
      rw [Upload.next, if_pos hc] at hp
      have he := (h _ hreach ha).complete (.inl ⟨true, hp⟩)
      rwa [hr.storedSize, hr.total] at he
  · intro hs x hx ha
    exact (Situation.of_reachable hx).within_limits ha hs

/-- A peer that announces one byte in all and then sends two. -/
def oversizedStream : Bytes := (preRequest 7 1 1).val ++ (request 7 0 [104, 105]).bytes

theorem size_limits_exceeded : ¬ ∀ (mConfig : Config) (stream : Bytes) (fs : FileSystem)
    (x : Session × FileSystem), Session.Reachable mConfig stream fs x → x.1.conn.Accepted →
    x.1.conn.WithinLimits mConfig := by
  intro h
  have hx : Session.Reachable {} oversizedStream (outDirectory []) _ :=
    ⟨[.ok, .ok, .ok, .ok], .cons rfl (.cons rfl (.cons rfl (.cons rfl .nil)))⟩
  exact absurd (h _ _ _ _ hx rfl).announced (by decide)

end Limits
end Horcrux
