import Horcrux.Proofs.Grammar
import Horcrux.Proofs.Requests

namespace Horcrux
open Save Utils

/-- The messages carry the requests, headers and contents, each once and in any order. -/
structure Feeds (requests : List Request) (messages : List Message) : Prop where
  perm : (messages.map fun m => (m.head, m.content)).Perm
    (requests.map fun r => (r.mHeader, r.mContent))

/-- What checkRequestHeader says of the header that ReadRequestHeader has just received. -/
def TcpConnection.passes (c : TcpConnection) (header : CharArray 24) : Bool :=
  { c with
    mRequestHeaderBuffer := header
    mRequestHeader := deserializeHeader header : TcpConnection }.checkRequestHeader

/-- Every request header that a connection can come to check on this stream passes. -/
def ChecksPass (mConfig : Config) (stream : Bytes) (fs : FileSystem) : Prop :=
  ∀ x, Session.Reachable mConfig stream fs x → x.1.conn.pending = some .readRequestHeader →
    ∀ (header : CharArray 24) rest, x.1.unread = header.val ++ rest →
      x.1.conn.passes header = true

/-- Without an I/O error the connection comes to check the header of each message, where it
stands in the stream, and it passes. -/
def TakesEach (mConfig : Config) (pre : CharArray 16) (ms : List Message) (fs : FileSystem) :
    Prop :=
  ∀ before m after, ms = before ++ m :: after →
    ∃ k x, Agents.Schedule Session.Step (List.replicate k .ok)
        (.accepted mConfig (pre.val ++ ms.flatMap Message.bytes), fs) x ∧
      x.1.conn.pending = some .readRequestHeader ∧
      x.1.unread = m.header.val ++ (m.content ++ after.flatMap Message.bytes) ∧
      x.1.conn.passes m.header = true

/-- The builders agree with each other, and the checks of a connection with these limits that
has accepted the one let all of the others pass, in any order. -/
structure BuildersAgree (mConfig : Config) (uuid : UInt64) (hs : List HorcruxData) : Prop where
  count : (Request.fromHorcruxes uuid hs).length =
    (PreRequestHeader.fromHorcruxes uuid hs).mNumHorcruxes.toNat
  each : ∀ (i : Nat) hcx, hs[i]? = some hcx → ∃ r, (Request.fromHorcruxes uuid hs)[i]? = some r ∧
    r.mHeader.mUuid = (PreRequestHeader.fromHorcruxes uuid hs).mUuid ∧
    r.mHeader.mIndex.toNat = i ∧ r.mContent = hcx.mContent ∧ r.mChecksum = hcx.mChecksum
  total : (PreRequestHeader.fromHorcruxes uuid hs).mTotalSize.toNat =
    ((Request.fromHorcruxes uuid hs).map fun r => r.mHeader.mContentSize.toNat).sum % 2 ^ 32
  pass : ∀ (pre : CharArray 16) ms fs,
    announcement pre = PreRequestHeader.fromHorcruxes uuid hs →
    ((TcpConnection.createNew mConfig).onPreRequestHeader pre).Accepted →
    Feeds (Request.fromHorcruxes uuid hs) ms →
    TakesEach mConfig pre ms fs ∧ ChecksPass mConfig (pre.val ++ ms.flatMap Message.bytes) fs

section
variable {mConfig : Config} {uuid : UInt64} {hs : List HorcruxData} {pre : CharArray 16}
  {ms : List Message}

theorem getElem?_fromHorcruxes (uuid : UInt64) (hs : List HorcruxData) (i : Nat) :
    (Request.fromHorcruxes uuid hs)[i]? = hs[i]?.map (Request.of uuid i) := by
  rw [Request.fromHorcruxes_eq, List.getElem?_mapIdx]

theorem length_fromHorcruxes (uuid : UInt64) (hs : List HorcruxData) :
    (Request.fromHorcruxes uuid hs).length = hs.length := by
  rw [Request.fromHorcruxes_eq, List.length_mapIdx]

/-- The two builders agree on the total even where single sizes wrap around. -/
theorem sum_contentSizes (uuid : UInt64) (hs : List HorcruxData) :
    (PreRequestHeader.fromHorcruxes uuid hs).mTotalSize.toNat =
      ((Request.fromHorcruxes uuid hs).map fun r => r.mHeader.mContentSize.toNat).sum % 2 ^ 32 := by
  have hsizes : (Request.fromHorcruxes uuid hs).map (fun r => r.mHeader.mContentSize.toNat) =
      (hs.map fun hcx => hcx.mContent.length).map (· % 2 ^ 32) := by
    rw [Request.fromHorcruxes_eq]
    apply List.ext_getElem <;> simp [Request.of]
  rw [hsizes, PreRequestHeader.fromHorcruxes_eq, UInt32.toNat_ofNat', aggregate]
  exact List.sum_nat_mod _ _

theorem indices_fromHorcruxes (uuid : UInt64) (hn : hs.length < 2 ^ 32) :
    (Request.fromHorcruxes uuid hs).map (fun r => r.mHeader.mIndex.toNat) =
      List.range hs.length := by
  rw [Request.fromHorcruxes_eq]
  apply List.ext_getElem
  · simp
  · intro i hi hi'
    rw [List.length_range] at hi'
    simp only [List.getElem_map, List.getElem_mapIdx, List.getElem_range, Request.of]
    exact UInt32.toNat_ofNat_of_lt' (Nat.lt_trans hi' hn)

/-- A connection that has accepted a pre-request has found it within the limits. -/
theorem limits_of_accepted
    (h : ((TcpConnection.createNew mConfig).onPreRequestHeader pre).Accepted) :
    (announcement pre).mNumHorcruxes.toNat ≤ mConfig.mMaxNumHorcruxAccepted.toNat ∧
      (announcement pre).mTotalSize.toNat ≤ mConfig.mMaxTotalSizeAccepted.toNat := by
  by_contra hl
  obtain ⟨_, _, ht⟩ := onPreRequestHeader_refused mConfig pre hl
  simp [TcpConnection.Accepted, TcpConnection.responses, ht, responsesOf] at h

theorem accepted_of_limits (h : (announcement pre).mNumHorcruxes.toNat ≤
      mConfig.mMaxNumHorcruxAccepted.toNat ∧
    (announcement pre).mTotalSize.toNat ≤ mConfig.mMaxTotalSizeAccepted.toNat) :
    ((TcpConnection.createNew mConfig).onPreRequestHeader pre).Accepted := by
  obtain ⟨_, _, ht⟩ := onPreRequestHeader_announced mConfig pre h.1 h.2
  simp [TcpConnection.Accepted, TcpConnection.responses, ht, responsesOf_received]

theorem passes_iff {c : TcpConnection} {u : Upload mConfig} (hr : c.Receives u)
    (header : CharArray 24) : c.passes header = true ↔ u.Admits (deserializeHeader header) :=
  checkRequestHeader_received hr header

section Turns

/-- Each of the messages is admitted after those before it. -/
def InTurn (mConfig : Config) (pre : CharArray 16) (ms : List Message) : Prop :=
  ∀ before m after, ms = before ++ m :: after →
    ∃ v : Upload mConfig, v.pre = pre ∧ v.messages = before ∧ v.Admits m.head

theorem InTurn.takes_each (h : InTurn mConfig pre ms) (fs : FileSystem) :
    TakesEach mConfig pre ms fs := by
  rintro before m after rfl
  obtain ⟨v, rfl, rfl, ha⟩ := h _ m after rfl
  obtain ⟨k, c, hrun, hr, hp⟩ := reach_upload v ((m :: after).flatMap Message.bytes) fs
  rw [Upload.next, if_neg ha.not_complete] at hp
  have hwrite : Session.Step .ok (⟨c, (m :: after).flatMap Message.bytes⟩, fs)
      (⟨c.readRequestHeader, (m :: after).flatMap Message.bytes⟩, fs) :=
    (Session.complete_response hp .ok fs).trans rfl
  have hr' : c.readRequestHeader.Receives v := ⟨hr.config, hr.header, hr.slots⟩
  refine ⟨k + 1, (⟨c.readRequestHeader, (m :: after).flatMap Message.bytes⟩, fs), ?_, rfl, ?_,
    (passes_iff hr' m.header).mpr ha⟩
  · rw [List.flatMap_append, ← List.append_assoc, List.replicate_add]
    exact hrun.append (.single hwrite)
  · simp [Message.bytes]

theorem InTurn.checks_pass (h : InTurn mConfig pre ms)
    (hcount : (announcement pre).mNumHorcruxes.toNat = ms.length) (fs : FileSystem) :
    ChecksPass mConfig (pre.val ++ ms.flatMap Message.bytes) fs := by
  intro x hx hp header rest hu
  obtain ⟨u, hr, hn, hx⟩ := (Situation.of_reachable hx).pending hp
  simp only [Upload.bytes, List.append_assoc] at hx
  obtain ⟨hpre, hms⟩ := List.append_inj hx (pre.property.trans u.pre.property.symm)
  obtain rfl : pre = u.pre := Subtype.ext hpre
  have hlt : u.messages.length < ms.length := by
    have hle := u.length_le
    rw [Upload.count, Upload.announced, hcount] at hle
    refine hle.lt_of_ne fun he => ?_
    cases ms with
    | nil =>
      obtain ⟨_, hunread⟩ := List.append_eq_nil_iff.mp hms.symm
      have hl := congrArg List.length (hu.symm.trans hunread)
      simp [header.property] at hl
    | cons m ms =>
      refine hn ⟨he.trans hcount.symm, ?_⟩
      rw [Upload.count, Upload.announced, hcount]
      exact Nat.succ_pos _
  -- the messages received so far are the first ones, and the header that of the next one
  obtain ⟨v, hvpre, hv, hadmits⟩ := h (ms.take u.messages.length) ms[u.messages.length]
    (ms.drop (u.messages.length + 1)) (by simp)
  rw [← List.take_append_drop u.messages.length ms, List.drop_eq_getElem_cons hlt,
    List.flatMap_append, List.flatMap_cons] at hms
  obtain ⟨htake, hrest⟩ := messages_unique (by simp [hlt.le])
    (fun m hm => v.length m (hv ▸ hm)) u.length hms
  rw [hu, Message.bytes, List.append_assoc] at hrest
  have hheader : header = ms[u.messages.length].header := Subtype.ext
    (List.append_inj hrest
      (ms[u.messages.length].header.property.trans header.property.symm)).1.symm
  rw [hheader, passes_iff hr]
  obtain ⟨huuid, hindex, hfree⟩ := hadmits
  rw [Upload.announced, hvpre] at huuid
  rw [Upload.count, Upload.announced, hvpre] at hindex
  rw [hv, htake] at hfree
  exact ⟨huuid, hindex, hfree⟩

/-- The upload of the first messages of another one. -/
def Upload.first (v : Upload mConfig) (hv : v.messages = before ++ after) : Upload mConfig where
  pre := v.pre
  messages := before
  number := v.number
  size := v.size
  uuid m hm := v.uuid m (hv ▸ List.mem_append_left _ hm)
  length m hm := v.length m (hv ▸ List.mem_append_left _ hm)
  fits := by
    have hfits := v.fits
    rw [hv, List.map_append] at hfits
    refine ⟨fun x hx => hfits.lt x (List.mem_append_left _ hx), ?_⟩
    have hnodup := hfits.nodup
    rw [List.map_append] at hnodup
    exact hnodup.of_append_left

theorem Upload.inTurn (v : Upload mConfig) : InTurn mConfig v.pre v.messages := by
  intro before m after he
  exact ⟨v.first he, rfl, rfl, (admits_of_extends (u := v.first he) (v := v) rfl he).1⟩

/-- An upload that is a proper beginning of another one has fewer messages. -/
theorem Upload.length_lt {u v : Upload mConfig} (h : u.bytes ++ w = v.bytes) (hw : w ≠ []) :
    u.messages.length < v.messages.length := by
  by_contra hle
  simp only [Upload.bytes, List.append_assoc] at h
  obtain ⟨_, hms⟩ := List.append_inj h (u.pre.property.trans v.pre.property.symm)
  rw [← List.take_append_drop v.messages.length u.messages, List.flatMap_append,
    List.append_assoc, ← List.append_nil (v.messages.flatMap Message.bytes)] at hms
  obtain ⟨_, hrest⟩ := messages_unique (by simpa using hle)
    (fun m hm => u.length m (List.mem_of_mem_take hm)) v.length hms
  exact hw (List.append_eq_nil_iff.mp hrest).2

theorem Message.bytes_ne_nil (m : Message) : m.bytes ≠ [] := by
  intro he
  have hl := congrArg List.length (List.append_eq_nil_iff.mp he).1
  rw [m.header.property] at hl
  cases hl

/-- Where a message is checked at its place, the connection has taken up what comes before. -/
theorem TakesEach.received (h : TakesEach mConfig pre ms fs) (he : ms = before ++ m :: after) :
    ∃ u : Upload mConfig, u.pre = pre ∧ ¬ u.Complete ∧
      u.bytes = pre.val ++ before.flatMap Message.bytes := by
  obtain ⟨k, x, hrun, hp, hu, _⟩ := h before m after he
  obtain ⟨u, _, hn, hx⟩ := (Situation.of_reachable ⟨_, hrun⟩).pending hp
  have hbytes : m.header.val ++ (m.content ++ after.flatMap Message.bytes) =
      (m :: after).flatMap Message.bytes := by simp [Message.bytes]
  rw [hu, hbytes, he, List.flatMap_append, ← List.append_assoc] at hx
  have hx := List.append_cancel_right hx
  refine ⟨u, ?_, hn, hx.symm⟩
  exact Subtype.ext (List.append_inj hx (pre.property.trans u.pre.property.symm)).1.symm

/-- Where a message is checked behind a longer content than its header says, the connection has
taken up more messages than it was sent. -/
theorem TakesEach.more (h : TakesEach mConfig pre (m₀ :: ms) fs)
    (hlong : m₀.content.length ≠ m₀.head.mContentSize.toNat) :
    ∀ before m after, ms = before ++ m :: after →
      ∃ u : Upload mConfig, u.pre = pre ∧ ¬ u.Complete ∧
        u.bytes = pre.val ++ (m₀ :: before).flatMap Message.bytes ∧
        before.length + 2 ≤ u.messages.length := by
  intro before
  induction before using List.reverseRecOn with
  | nil =>
    rintro m after rfl
    obtain ⟨u, hpre, hn, hbytes⟩ := h.received (show _ = [m₀] ++ m :: after from rfl)
    refine ⟨u, hpre, hn, hbytes, ?_⟩
    have hms : u.messages.flatMap Message.bytes = m₀.bytes := by
      rw [Upload.bytes, hpre] at hbytes
      simpa using List.append_cancel_left hbytes
    rcases hu : u.messages with _ | ⟨m', _ | ⟨_, _⟩⟩
    · rw [hu] at hms
      exact absurd hms.symm m₀.bytes_ne_nil
    · rw [hu, List.flatMap_singleton, Message.bytes, Message.bytes] at hms
      obtain ⟨hheader, hcontent⟩ :=
        List.append_inj hms (m'.header.property.trans m₀.header.property.symm)
      have hlength := u.length m' (hu ▸ List.mem_singleton_self m')
      rw [Message.head, Subtype.ext hheader, hcontent] at hlength
      exact absurd hlength hlong
    · simp
  | append_singleton before m' ih =>
    rintro m after rfl
    obtain ⟨u, hpre, _, hbytes, hlength⟩ := ih m' (m :: after) (by simp)
    obtain ⟨v, hpre', hn, hbytes'⟩ :=
      h.received (show _ = (m₀ :: (before ++ [m'])) ++ m :: after by simp)
    refine ⟨v, hpre', hn, hbytes', ?_⟩
    have hlt : u.messages.length < v.messages.length := by
      refine Upload.length_lt (w := m'.bytes) ?_ m'.bytes_ne_nil
      rw [hbytes, hbytes']
      simp
    simp only [List.length_append, List.length_singleton]
    omega

/-- Only the last message can be longer than its header says. -/
theorem TakesEach.true_length (h : TakesEach mConfig pre (m₀ :: m₁ :: ms) fs)
    (hcount : (announcement pre).mNumHorcruxes.toNat = (m₀ :: m₁ :: ms).length) :
    m₀.content.length = m₀.head.mContentSize.toNat := by
  by_contra hlong
  obtain ⟨u, rfl, hn, _, hlength⟩ := h.more hlong (m₁ :: ms).dropLast
    ((m₁ :: ms).getLast (by simp)) [] (List.dropLast_append_getLast (by simp)).symm
  have hle := u.length_le
  rw [Upload.count, Upload.announced, hcount] at hle
  rw [List.length_dropLast] at hlength
  simp only [List.length_cons] at hle hlength
  refine hn ⟨?_, ?_⟩ <;> rw [Upload.count, Upload.announced, hcount] <;>
    simp only [List.length_cons] <;> omega

end Turns

section Feeds

theorem Feeds.length_eq (h : Feeds (Request.fromHorcruxes uuid hs) ms) :
    ms.length = hs.length := by
  have hl := h.perm.length_eq
  rwa [List.length_map, List.length_map, length_fromHorcruxes] at hl

/-- Every message is that of a horcrux. -/
theorem Feeds.of_mem (h : Feeds (Request.fromHorcruxes uuid hs) ms) (hm : m ∈ ms) :
    ∃ (i : Nat) (hi : i < hs.length), m.head = (Request.of uuid i hs[i]).mHeader ∧
      m.content = hs[i].mContent := by
  obtain ⟨r, hr, he⟩ := List.mem_map.mp (h.perm.mem_iff.mp (List.mem_map_of_mem hm))
  obtain ⟨i, hi, rfl⟩ := mem_fromHorcruxes.mp hr
  obtain ⟨hhead, hcontent⟩ := Prod.mk.inj he
  exact ⟨i, hi, hhead.symm, hcontent.symm⟩

theorem toNat_mNumHorcruxes (hn : hs.length < 2 ^ 32)
    (hpre : announcement pre = PreRequestHeader.fromHorcruxes uuid hs) :
    (announcement pre).mNumHorcruxes.toNat = hs.length := by
  rw [hpre, PreRequestHeader.fromHorcruxes_eq]
  exact UInt32.toNat_ofNat_of_lt' hn

theorem Feeds.mUuid_eq (h : Feeds (Request.fromHorcruxes uuid hs) ms)
    (hpre : announcement pre = PreRequestHeader.fromHorcruxes uuid hs) (hm : m ∈ ms) :
    m.head.mUuid = (announcement pre).mUuid := by
  obtain ⟨i, hi, hhead, _⟩ := h.of_mem hm
  rw [hhead, hpre, PreRequestHeader.fromHorcruxes_eq]
  rfl

/-- The upload that the messages make up, where each content has the length in its header. -/
def Feeds.upload (h : Feeds (Request.fromHorcruxes uuid hs) ms) (hn : hs.length < 2 ^ 32)
    (hpre : announcement pre = PreRequestHeader.fromHorcruxes uuid hs)
    (ha : ((TcpConnection.createNew mConfig).onPreRequestHeader pre).Accepted)
    (hfit : ∀ hcx ∈ hs, hcx.mContent.length < 2 ^ 32) : Upload mConfig where
  pre := pre
  messages := ms
  number := (limits_of_accepted ha).1
  size := (limits_of_accepted ha).2
  uuid m hm := h.mUuid_eq hpre hm
  length := by
    intro m hm
    obtain ⟨i, hi, hhead, hcontent⟩ := h.of_mem hm
    rw [hhead, hcontent]
    exact (UInt32.toNat_ofNat_of_lt' (hfit _ (List.getElem_mem hi))).symm
  fits := by
    have hi := h.perm.map fun x => x.1.mIndex.toNat
    rw [List.map_map, List.map_map] at hi
    apply Slots.Fits.of_perm_range
    rw [entries_map_fst, toNat_mNumHorcruxes hn hpre, ← indices_fromHorcruxes uuid hn]
    exact hi

/-- A single message is in turn, however long it is. -/
theorem Feeds.inTurn_single (h : Feeds (Request.fromHorcruxes uuid hs) ms) (hn : hs.length < 2 ^ 32)
    (hpre : announcement pre = PreRequestHeader.fromHorcruxes uuid hs)
    (ha : ((TcpConnection.createNew mConfig).onPreRequestHeader pre).Accepted)
    (hone : hs.length ≤ 1) : InTurn mConfig pre ms := by
  rintro before m after rfl
  have hl := h.length_eq
  rw [List.length_append, List.length_cons] at hl
  obtain rfl : before = [] := List.eq_nil_of_length_eq_zero (by omega)
  have hm : m ∈ [] ++ m :: after := by simp
  obtain ⟨hnumber, hsize⟩ := limits_of_accepted ha
  refine ⟨.announce pre hnumber hsize, rfl, rfl, h.mUuid_eq hpre hm, ?_, List.not_mem_nil⟩
  obtain ⟨i, hi, hhead, _⟩ := h.of_mem hm
  change m.head.mIndex.toNat < (announcement pre).mNumHorcruxes.toNat
  rw [toNat_mNumHorcruxes hn hpre, hhead]
  exact (UInt32.toNat_ofNat_of_lt' (hi.trans hn)).trans_lt hi

/-- A request as it is sent. -/
def messageOf (r : Request) : Message := ⟨serializeHeader r.mHeader zeroPadding, r.mContent⟩

theorem feeds_sent {requests rs : List Request} (h : rs.Perm requests) :
    Feeds requests (rs.map messageOf) := by
  have hsent : ∀ r : Request,
      ((messageOf r).head, (messageOf r).content) = (r.mHeader, r.mContent) := fun r =>
    congrArg (·, r.mContent) (deserialize_requestHeader r.mHeader zeroPadding)
  have hmap : (rs.map messageOf).map (fun m => (m.head, m.content)) =
      rs.map fun r => (r.mHeader, r.mContent) := by
    rw [List.map_map]
    exact List.map_congr_left fun r _ => hsent r
  exact ⟨hmap ▸ h.map _⟩

/-- Where two requests are let pass in any order, their contents fit in the size field. -/
theorem content_lt_of_pass (hn : hs.length < 2 ^ 32) (h : BuildersAgree mConfig uuid hs)
    (hnumber : hs.length ≤ mConfig.mMaxNumHorcruxAccepted.toNat)
    (hsize : aggregate hs % 2 ^ 32 ≤ mConfig.mMaxTotalSizeAccepted.toNat) (htwo : 2 ≤ hs.length)
    (hm : hcx ∈ hs) : hcx.mContent.length < 2 ^ 32 := by
  obtain ⟨i, hi, rfl⟩ := List.mem_iff_getElem.mp hm
  have hpre := deserialize_preRequestHeader (PreRequestHeader.fromHorcruxes uuid hs) noPadding
  have ha : ((TcpConnection.createNew mConfig).onPreRequestHeader
      (serializeHeader (PreRequestHeader.fromHorcruxes uuid hs) noPadding)).Accepted := by
    refine accepted_of_limits ⟨(toNat_mNumHorcruxes hn hpre).trans_le hnumber, ?_⟩
    rw [announcement, hpre, PreRequestHeader.fromHorcruxes_eq]
    exact (UInt32.toNat_ofNat' ..).trans_le hsize
  -- the request of the content comes first
  have hperm := List.perm_cons_erase (mem_fromHorcruxes.mpr ⟨i, hi, rfl⟩ :
    Request.of uuid i hs[i] ∈ Request.fromHorcruxes uuid hs)
  generalize (Request.fromHorcruxes uuid hs).erase (Request.of uuid i hs[i]) = rs at hperm
  have hl := hperm.length_eq
  rw [length_fromHorcruxes, List.length_cons] at hl
  cases rs with
  | nil => simp only [List.length_nil] at hl; omega
  | cons r rs =>
    have htakes := (h.pass _ _ (outDirectory []) hpre ha (feeds_sent hperm.symm)).1
    have hlength := htakes.true_length (by
      rw [toNat_mNumHorcruxes hn hpre, hl]
      simp)
    exact hlength.trans_lt (UInt32.toNat_lt _)

/-- The two request builders agree with each other. A connection that has accepted the one lets
the others pass in any order exactly if no content but that of a single request is too long for
its size field: behind such a content the next header is looked for at the wrong place. -/
theorem builders_agree_iff (mConfig : Config) (uuid : UInt64) (hs : List HorcruxData)
    (hn : hs.length < 2 ^ 32) : BuildersAgree mConfig uuid hs ↔
      mConfig.mMaxNumHorcruxAccepted.toNat < hs.length ∨
      mConfig.mMaxTotalSizeAccepted.toNat < aggregate hs % 2 ^ 32 ∨
      hs.length ≤ 1 ∨ ∀ hcx ∈ hs, hcx.mContent.length < 2 ^ 32 := by
  constructor
  · intro h
    by_contra hnot
    simp only [not_or, not_lt, not_le] at hnot
    obtain ⟨hnumber, hsize, htwo, hlong⟩ := hnot
    exact hlong fun hcx hm => content_lt_of_pass hn h hnumber hsize htwo hm
  · intro h
    have hnum : (PreRequestHeader.fromHorcruxes uuid hs).mNumHorcruxes.toNat = hs.length := by
      rw [PreRequestHeader.fromHorcruxes_eq]
      exact UInt32.toNat_ofNat_of_lt' hn
    refine ⟨(length_fromHorcruxes uuid hs).trans hnum.symm, fun i hcx hi => ?_,
      sum_contentSizes uuid hs, fun pre ms fs hpre ha hf => ?_⟩
    · have hlt := (List.getElem?_eq_some_iff.mp hi).1
      refine ⟨Request.of uuid i hcx, ?_, ?_, ?_, rfl, rfl⟩
      · rw [getElem?_fromHorcruxes, hi]
        rfl
      · rw [PreRequestHeader.fromHorcruxes_eq]
        rfl
      · exact UInt32.toNat_ofNat_of_lt' (Nat.lt_trans hlt hn)
    · have hinTurn : InTurn mConfig pre ms := by
        obtain ⟨hnumber, hsize⟩ := limits_of_accepted ha
        rw [toNat_mNumHorcruxes hn hpre] at hnumber
        rw [hpre, PreRequestHeader.fromHorcruxes_eq, UInt32.toNat_ofNat'] at hsize
        rcases h with h | h | hone | hfit
        · omega
        · omega
        · exact hf.inTurn_single hn hpre ha hone
        · exact (hf.upload hn hpre ha hfit).inTurn
      exact ⟨hinTurn.takes_each fs, hinTurn.checks_pass
        ((toNat_mNumHorcruxes hn hpre).trans hf.length_eq.symm) fs⟩

theorem builders_agree_sample : TakesEach {} (preRequest 7 2 2)
    [request 7 1 [105], request 7 0 [104]] (outDirectory []) :=
  (((builders_agree_iff {} 7 [⟨[104], []⟩, ⟨[105], [33]⟩] (by decide)).mpr
    (.inr (.inr (.inr (by decide))))).pass (preRequest 7 2 2) _ _ rfl rfl
      ⟨by decide⟩).1

/-- Behind a content of 2^32 bytes no other request passes: its size is announced as 0. -/
theorem not_builders_agree {content : Bytes} (hlen : content.length = 2 ^ 32) (uuid : UInt64) :
    ¬ BuildersAgree {} uuid [⟨content, []⟩, ⟨[], []⟩] := by
  intro h
  have hsize : aggregate [⟨content, []⟩, ⟨[], []⟩] % 2 ^ 32 ≤ 10000000 := by
    simp [aggregate, hlen]
  have hnumber : 2 ≤ ({} : Config).mMaxNumHorcruxAccepted.toNat := by decide
  have hlt := content_lt_of_pass (by simp) h hnumber hsize (le_refl _) List.mem_cons_self
  exact absurd hlt (by rw [hlen]; exact lt_irrefl _)

/-- The first of the zeros are taken for the header of the second request. -/
theorem builders_agree_missed :
    ¬ BuildersAgree {} 7 [⟨List.replicate (2 ^ 32) 0, []⟩, ⟨[], []⟩] :=
  not_builders_agree List.length_replicate 7

end Feeds
end
end Horcrux
