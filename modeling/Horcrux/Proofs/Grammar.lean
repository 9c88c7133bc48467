import Horcrux.Proofs.Connection

namespace Horcrux
open Save Utils

section Run
variable {mConfig : Config} {c : TcpConnection} {u : Upload mConfig} {rest : Bytes}
  {fs : FileSystem}

/-- An admitted header takes a connection that waits for one to reading the content. -/
theorem read_header (hr : c.Receives u) (hp : c.pending = some .readRequestHeader)
    (header : CharArray 24) (ha : u.Admits (deserializeHeader header)) (rest : Bytes)
    (fs : FileSystem) :
    ∃ c', Session.Step .ok (⟨c, header.val ++ rest⟩, fs) (⟨c', rest⟩, fs) ∧
      c'.Receives u ∧ c'.pending = some .readRequestContent ∧
      c'.mRequestHeader = deserializeHeader header ∧
      c'.mMessageBuffer.length = c'.mRequestHeader.mContentSize.toNat := by
  obtain ⟨hr', hp', hh, hb, _⟩ := onRequestHeader_admitted hr header ha
  exact ⟨_, Session.complete_ok_requestHeader hp header rfl, hr', hp', hh, hb⟩

/-- The same after the connection has answered. -/
theorem receive_header (hr : c.Receives u)
    (hp : c.pending = some (.sendResponse true .readRequestHeader)) (header : CharArray 24)
    (ha : u.Admits (deserializeHeader header)) (rest : Bytes) (fs : FileSystem) :
    ∃ c', Agents.Schedule Session.Step [.ok, .ok] (⟨c, header.val ++ rest⟩, fs) (⟨c', rest⟩, fs) ∧
      c'.Receives u ∧ c'.pending = some .readRequestContent ∧
      c'.mRequestHeader = deserializeHeader header ∧
      c'.mMessageBuffer.length = c'.mRequestHeader.mContentSize.toNat := by
  have hwrite : Session.Step .ok (⟨c, header.val ++ rest⟩, fs)
      (⟨c.readRequestHeader, header.val ++ rest⟩, fs) :=
    (Session.complete_response hp .ok fs).trans rfl
  obtain ⟨c', hread, hr', hp', hh, hb⟩ := read_header (c := c.readRequestHeader)
    ⟨hr.config, hr.header, hr.slots⟩ rfl header ha rest fs
  exact ⟨c', .cons hwrite (.single hread), hr', hp', hh, hb⟩

theorem receive_content (hr : c.Receives u) (hp : c.pending = some .readRequestContent)
    (m : Message) (ha : u.Admits m.head) (hl : m.content.length = m.head.mContentSize.toNat)
    (hh : c.mRequestHeader = m.head)
    (hb : c.mMessageBuffer.length = c.mRequestHeader.mContentSize.toNat) (rest : Bytes)
    (fs : FileSystem) :
    ∃ c', Agents.Schedule Session.Step [.ok] (⟨c, m.content ++ rest⟩, fs) (⟨c', rest⟩, fs) ∧
      c'.Receives (u.store m ha hl) ∧
      c'.pending = some (.sendResponse true (u.store m ha hl).next) := by
  obtain ⟨c', hc, hr', hp', _⟩ := onRequestContent_stored hr m ha hl hh hb
  have hsize : m.content.length = c.contentBufferSize := by
    rw [TcpConnection.contentBufferSize, hb, Nat.min_self, hh, hl]
  exact ⟨c', .single (Session.complete_ok_requestContent hp hsize rfl hc), hr', hp'⟩

/-- In an upload that goes on after `u`, the next message is admitted after `u`. -/
theorem admits_of_extends {v : Upload mConfig} (hpre : v.pre = u.pre)
    (hv : v.messages = u.messages ++ m :: ms) :
    u.Admits m.head ∧ m.content.length = m.head.mContentSize.toNat := by
  have hm : m ∈ v.messages := by simp [hv]
  have hd := v.fits.nodup
  rw [hv, List.map_append, List.map_append] at hd
  refine ⟨⟨?_, ?_, ?_⟩, v.length m hm⟩
  · rw [v.uuid m hm, hpre]
    rfl
  · have hlt := v.fits.lt m.entry (List.mem_map_of_mem hm)
    rwa [hpre] at hlt
  · intro hmem
    exact (List.nodup_append.mp hd).2.2 _ hmem _ (by simp [Message.entry]) rfl

theorem receive_messages (v : Upload mConfig) (ms : List Message) (hr : c.Receives u)
    (hp : c.pending = some (.sendResponse true u.next)) (hpre : v.pre = u.pre)
    (hv : v.messages = u.messages ++ ms) :
    ∃ n c', Agents.Schedule Session.Step (List.replicate n .ok)
        (⟨c, ms.flatMap Message.bytes ++ rest⟩, fs) (⟨c', rest⟩, fs) ∧
      c'.Receives v ∧ c'.pending = some (.sendResponse true v.next) := by
  induction ms generalizing u c with
  | nil =>
    have he : v = u := by
      cases u; cases v
      simp_all
    subst he
    exact ⟨0, c, .nil, hr, hp⟩
  | cons m ms ih =>
    obtain ⟨ha, hl⟩ := admits_of_extends hpre hv
    rw [Upload.next, if_neg ha.not_complete] at hp
    obtain ⟨c₁, h₁, hr₁, hp₁, hh, hb⟩ := receive_header hr hp m.header ha _ fs
    obtain ⟨c₂, h₂, hr₂, hp₂⟩ := receive_content hr₁ hp₁ m ha hl hh hb _ fs
    obtain ⟨n, c', h₃, hr', hp'⟩ := ih hr₂ hp₂ hpre (by simp [Upload.store, hv])
    refine ⟨3 + n, c', ?_, hr', hp'⟩
    rw [List.flatMap_cons, Message.bytes, List.append_assoc, List.append_assoc,
      List.replicate_add]
    exact h₁.append (h₂.append h₃)

/-- Every upload, complete or not, is reached by its bytes, without an I/O error. -/
theorem reach_upload (v : Upload mConfig) (rest : Bytes) (fs : FileSystem) :
    ∃ n c, Agents.Schedule Session.Step (List.replicate n .ok)
        (.accepted mConfig (v.bytes ++ rest), fs) (⟨c, rest⟩, fs) ∧
      c.Receives v ∧ c.pending = some (.sendResponse true v.next) := by
  obtain ⟨hr, hp, _⟩ := onPreRequestHeader_announced mConfig v.pre v.number v.size
  have hnext : (Upload.announce v.pre v.number v.size : Upload mConfig).next = .readRequestHeader :=
    if_neg (announce_not_complete v.pre v.number v.size)
  have hread : Session.Step .ok (.accepted mConfig (v.bytes ++ rest), fs)
      (⟨(TcpConnection.createNew mConfig).onPreRequestHeader v.pre,
        v.messages.flatMap Message.bytes ++ rest⟩, fs) :=
    Session.complete_ok_preRequestHeader rfl v.pre
      (by simp [Session.accepted, Upload.bytes])
  rw [← hnext] at hp
  obtain ⟨n, c, h, hr', hp'⟩ := receive_messages v v.messages hr hp rfl rfl
  exact ⟨n + 1, c, .cons hread h, hr', hp'⟩

end Run

/-- The upload grammar: a pre-request within the limits that announces at least one
horcrux, then one message for each announced index, in any order. -/
structure Accepts (mConfig : Config) (pre : CharArray 16) (messages : List Message) : Prop where
  positive : 1 ≤ (announcement pre).mNumHorcruxes.toNat
  number : (announcement pre).mNumHorcruxes.toNat ≤ mConfig.mMaxNumHorcruxAccepted.toNat
  size : (announcement pre).mTotalSize.toNat ≤ mConfig.mMaxTotalSizeAccepted.toNat
  count : messages.length = (announcement pre).mNumHorcruxes.toNat
  uuid : ∀ m ∈ messages, m.head.mUuid = (announcement pre).mUuid
  length : ∀ m ∈ messages, m.content.length = m.head.mContentSize.toNat
  indices : (messages.map fun m => m.head.mIndex.toNat).Perm
    (List.range (announcement pre).mNumHorcruxes.toNat)

/-- A stream that starts with an upload of the grammar. -/
def Starts (pre : CharArray 16) (messages : List Message) (rest stream : Bytes) : Prop :=
  stream = pre.val ++ (messages.flatMap Message.bytes ++ rest)

section Grammar
variable {mConfig : Config} {stream rest : Bytes} {pre : CharArray 16} {ms : List Message}

theorem entries_map_fst (ms : List Message) :
    (ms.map Message.entry).map Prod.fst = ms.map fun m => m.head.mIndex.toNat := by
  simp [Message.entry, Function.comp_def]

def Accepts.upload (h : Accepts mConfig pre ms) : Upload mConfig where
  pre := pre
  messages := ms
  number := h.number
  size := h.size
  uuid := h.uuid
  length := h.length
  fits := by
    apply Slots.Fits.of_perm_range
    rw [entries_map_fst]
    exact h.indices

theorem Accepts.complete (h : Accepts mConfig pre ms) : h.upload.Complete :=
  ⟨h.count, h.positive⟩

theorem Upload.Complete.accepts {u : Upload mConfig} (h : u.Complete) :
    Accepts mConfig u.pre u.messages where
  positive := h.2
  number := u.number
  size := u.size
  count := h.1
  uuid := u.uuid
  length := u.length
  indices := by
    rw [← entries_map_fst]
    exact u.fits.perm_range ((List.length_map _).trans h.1)

/-- A message is read off a stream in one way, since its header fixes its length. -/
theorem messages_unique {ms ms' : List Message} {rest rest' : Bytes}
    (hl : ms.length = ms'.length)
    (hm : ∀ m ∈ ms, m.content.length = m.head.mContentSize.toNat)
    (hm' : ∀ m ∈ ms', m.content.length = m.head.mContentSize.toNat)
    (h : ms.flatMap Message.bytes ++ rest = ms'.flatMap Message.bytes ++ rest') :
    ms = ms' ∧ rest = rest' := by
  induction ms generalizing ms' with
  | nil =>
    cases ms' with
    | nil => exact ⟨rfl, by simpa using h⟩
    | cons m' ms' => simp at hl
  | cons m ms ih =>
    cases ms' with
    | nil => simp at hl
    | cons m' ms' =>
      simp only [List.flatMap_cons, Message.bytes, List.append_assoc] at h
      obtain ⟨hh, hr⟩ := List.append_inj h (m.header.property.trans m'.header.property.symm)
      have hhead : m.header = m'.header := Subtype.ext hh
      have hlen : m.content.length = m'.content.length := by
        rw [hm m (by simp), hm' m' (by simp), Message.head, Message.head, hhead]
      obtain ⟨hc, hr⟩ := List.append_inj hr hlen
      obtain ⟨hms, hrest⟩ := ih (by simpa using hl) (fun x hx => hm x (by simp [hx]))
        (fun x hx => hm' x (by simp [hx])) hr
      refine ⟨?_, hrest⟩
      rw [hms]
      congr 1
      cases m; cases m'
      simp_all

theorem upload_unique {u v : Upload mConfig}
    (hl : u.count = v.count → u.messages.length = v.messages.length)
    (h : u.bytes ++ rest = v.bytes ++ rest') : u = v ∧ rest = rest' := by
  simp only [Upload.bytes, List.append_assoc] at h
  obtain ⟨hp, hr⟩ := List.append_inj h (u.pre.property.trans v.pre.property.symm)
  have hpre : u.pre = v.pre := Subtype.ext hp
  obtain ⟨hms, hrest⟩ := messages_unique (hl (by simp [Upload.count, Upload.announced, hpre]))
    u.length v.length hr
  refine ⟨?_, hrest⟩
  cases u; cases v
  simp_all

theorem saved_not_mem_received (k : Nat) : .saved ∉ receivedTrace k := by
  intro h
  simpa using mem_receivedTrace h

theorem saved_not_mem_complete (k : Nat) : .saved ∉ completeTrace k := by
  simpa [completeTrace] using saved_not_mem_received k

/-- A connection that has saved holds a complete upload, and the rest of the stream is
unread. -/
theorem Situation.saved_upload {s : Session} (h : Situation mConfig stream s)
    (ht : .saved ∈ s.conn.trace) :
    ∃ u : Upload mConfig, s.conn.Receives u ∧ u.Complete ∧ stream = u.bytes ++ s.unread ∧
      s.conn.pending = none := by
  cases h with
  | saved u hr hc hx hp _ => exact ⟨u, hr, hc, hx, hp⟩
  | fresh => simp at ht
  | lost _ _ he | refused _ _ _ _ he => simp [he] at ht
  | answering _ _ _ _ _ he | listening _ _ _ _ _ he | reading _ _ _ _ _ _ _ _ he
  | rejected _ _ _ _ _ _ _ he => simp [he, saved_not_mem_received] at ht
  | cut _ _ _ _ _ he => rcases he with he | he <;> simp [he, saved_not_mem_received] at ht
  | complete _ _ _ _ _ he => simp [he, saved_not_mem_complete] at ht

/-- A connection that holds a complete upload saves it as soon as it has answered. -/
theorem save_step {c : TcpConnection} {v : Upload mConfig} (hr : c.Receives v) (hv : v.Complete)
    (hp : c.pending = some (.sendResponse true .saveHorcruxes)) (rest : Bytes) (fs : FileSystem) :
    ∃ fs', Session.Step .ok (⟨c, rest⟩, fs)
      (⟨{ c.finish with trace := c.trace ++ [.saved] }, rest⟩, fs') := by
  obtain ⟨fs', hfs⟩ := exists_saveHorcruxes (hr.all_filled hv) fs
  refine ⟨fs', (Session.complete_response hp .ok fs).trans ?_⟩
  simp [TcpConnection.onResponse, hfs, Outcome.ofOption]

/-- A complete upload is saved, without an I/O error. -/
theorem reach_saved {v : Upload mConfig} (hv : v.Complete) (rest : Bytes) (fs : FileSystem) :
    ∃ n x, Agents.Schedule Session.Step (List.replicate n .ok)
      (.accepted mConfig (v.bytes ++ rest), fs) x ∧ .saved ∈ x.1.conn.trace := by
  obtain ⟨n, c, h, hr, hp⟩ := reach_upload v rest fs
  rw [Upload.next, if_pos hv] at hp
  obtain ⟨fs', hsave⟩ := save_step hr hv hp rest fs
  have hrun := h.append (.single hsave)
  rw [← List.replicate_succ'] at hrun
  exact ⟨n + 1, _, hrun, by simp⟩

theorem Accepts.starts_iff (h : Accepts mConfig pre ms) :
    Starts pre ms rest stream ↔ stream = h.upload.bytes ++ rest := by
  simp [Starts, Upload.bytes, Accepts.upload]

/-- What a saved connection holds is the one upload that its stream starts with. -/
theorem Accepts.saved_eq {s : Session} (h : Accepts mConfig pre ms)
    (hst : Starts pre ms rest stream) (hs : Situation mConfig stream s)
    (ht : .saved ∈ s.conn.trace) :
    s.conn.Receives h.upload ∧ s.unread = rest ∧ s.conn.pending = none := by
  obtain ⟨u, hr, hc, hx, hp⟩ := hs.saved_upload ht
  rw [h.starts_iff.mp hst] at hx
  obtain ⟨rfl, hrest⟩ := upload_unique (fun he => h.complete.1.trans (he.trans hc.1.symm)) hx
  exact ⟨hr, hrest.symm, hp⟩

theorem Upload.slots_getElem? (u : Upload mConfig) (hm : m ∈ u.messages) :
    u.slots[m.head.mIndex.toNat]? = some (some ⟨m.content, []⟩) := by
  apply Slots.Fits.getElem?_fill
  · rw [List.length_replicate]
    exact u.fits
  · exact List.mem_map.mpr ⟨m, hm, rfl⟩

/-- The server accepts exactly its upload grammar. It then has consumed exactly the
upload, holds the content of each message in the slot of its index, and saves the same
files for every order of the messages. -/
theorem accepts_exactly (mConfig : Config) (stream : Bytes) (fs : FileSystem) :
    ((∃ n x, Agents.Schedule Session.Step (List.replicate n .ok) (.accepted mConfig stream, fs) x ∧
        .saved ∈ x.1.conn.trace) ↔
      ∃ pre ms rest, Accepts mConfig pre ms ∧ Starts pre ms rest stream) ∧
    (∀ x, Session.Reachable mConfig stream fs x → .saved ∈ x.1.conn.trace →
      ∃ pre ms rest, Accepts mConfig pre ms ∧ Starts pre ms rest stream) ∧
    (∀ pre ms rest, Accepts mConfig pre ms → Starts pre ms rest stream →
      ∀ x, Session.Reachable mConfig stream fs x → .saved ∈ x.1.conn.trace →
        x.1.unread = rest ∧ x.1.conn.pending = none ∧
        x.1.conn.mCurrentRequestHorcruxes.length = ms.length ∧
        ∀ m ∈ ms, x.1.conn.mCurrentRequestHorcruxes[m.head.mIndex.toNat]? =
          some (some ⟨m.content, []⟩)) ∧
    (∀ pre ms ms' rest rest' stream', Accepts mConfig pre ms → ms.Perm ms' →
      Starts pre ms rest stream → Starts pre ms' rest' stream' →
      ∀ x y, Session.Reachable mConfig stream fs x → .saved ∈ x.1.conn.trace →
        Session.Reachable mConfig stream' fs y → .saved ∈ y.1.conn.trace → x.2 = y.2) := by
  have hgrammar : ∀ x, Session.Reachable mConfig stream fs x → .saved ∈ x.1.conn.trace →
      ∃ pre ms rest, Accepts mConfig pre ms ∧ Starts pre ms rest stream := by
    intro x hx ht
    obtain ⟨u, _, hc, he, _⟩ := (Situation.of_reachable hx).saved_upload ht
    exact ⟨u.pre, u.messages, x.1.unread, hc.accepts, by simpa [Starts, Upload.bytes] using he⟩
  refine ⟨⟨?_, ?_⟩, hgrammar, ?_, ?_⟩
  · intro h
    obtain ⟨n, x, hx, ht⟩ := h
    exact hgrammar x ⟨_, hx⟩ ht
  · intro h
    obtain ⟨pre, ms, rest, ha, hst⟩ := h
    rw [ha.starts_iff.mp hst]
    exact reach_saved ha.complete rest fs
  · intro pre ms rest ha hst x hx ht
    obtain ⟨hr, hrest, hp⟩ := ha.saved_eq hst (Situation.of_reachable hx) ht
    rw [hr.slots]
    exact ⟨hrest, hp, by rw [Upload.length_slots]; exact ha.count.symm,
      fun m hm => ha.upload.slots_getElem? hm⟩
  · intro pre ms ms' rest rest' stream' ha hperm hst hst' x y hx htx hy hty
    have ha' : Accepts mConfig pre ms' :=
      { ha with
        count := hperm.length_eq.symm.trans ha.count
        uuid := fun m hm => ha.uuid m (hperm.mem_iff.mpr hm)
        length := fun m hm => ha.length m (hperm.mem_iff.mpr hm)
        indices := (hperm.map _).symm.trans ha.indices }
    obtain ⟨hrx, _⟩ := ha.saved_eq hst (Situation.of_reachable hx) htx
    obtain ⟨hry, _⟩ := ha'.saved_eq hst' (Situation.of_reachable hy) hty
    have hslots : ha.upload.slots = ha'.upload.slots :=
      ha.upload.fits.fill_perm (hperm.map Message.entry)
    have hsx := hx.saved_fs htx
    have hsy := hy.saved_fs hty
    rw [TcpConnection.saveHorcruxes, hrx.header, hrx.slots] at hsx
    rw [TcpConnection.saveHorcruxes, hry.header, hry.slots, ← hslots] at hsy
    exact Option.some.inj (hsx.symm.trans hsy)

theorem sample_accepts : Accepts {} (preRequest 7 2 1) [request 7 0 [104, 105]] where
  positive := by decide
  number := by decide
  size := by decide
  count := by decide
  uuid := by decide
  length := by decide
  indices := by decide

end Grammar
end Horcrux
