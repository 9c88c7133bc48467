import Horcrux.Session
import Horcrux.Lib.Slots

namespace Horcrux
open Save Utils

/-- One request as it stands on the wire: its raw header and its content. -/
structure Message where
  header : CharArray 24
  content : Bytes

namespace Message

def head (m : Message) : Request.Header := deserializeHeader m.header

def bytes (m : Message) : Bytes := m.header.val ++ m.content

/-- The slot that the message asks for, and what belongs into it. -/
def entry (m : Message) : Nat × HorcruxData := (m.head.mIndex.toNat, ⟨m.content, []⟩)

end Message

def announcement (pre : CharArray 16) : PreRequestHeader := deserializeHeader pre

/-- What a peer has uploaded so far, independent of any buffer: an announcement within
the limits, and messages of its file that each have a slot of their own. -/
structure Upload (mConfig : Config) where
  pre : CharArray 16
  messages : List Message
  number : (announcement pre).mNumHorcruxes.toNat ≤ mConfig.mMaxNumHorcruxAccepted.toNat
  size : (announcement pre).mTotalSize.toNat ≤ mConfig.mMaxTotalSizeAccepted.toNat
  uuid : ∀ m ∈ messages, m.head.mUuid = (announcement pre).mUuid
  length : ∀ m ∈ messages, m.content.length = m.head.mContentSize.toNat
  fits : Slots.Fits (announcement pre).mNumHorcruxes.toNat (messages.map Message.entry)

namespace Upload
variable {mConfig : Config}

def announced (u : Upload mConfig) : PreRequestHeader := announcement u.pre

def count (u : Upload mConfig) : Nat := u.announced.mNumHorcruxes.toNat

def bytes (u : Upload mConfig) : Bytes := u.pre.val ++ u.messages.flatMap Message.bytes

/-- The slot table that the messages fill. -/
def slots (u : Upload mConfig) : List (Option HorcruxData) :=
  Slots.fill (List.replicate u.count none) (u.messages.map Message.entry)

/-- All announced horcruxes are there, and there is at least one. -/
def Complete (u : Upload mConfig) : Prop := u.messages.length = u.count ∧ 0 < u.count

instance (u : Upload mConfig) : Decidable u.Complete := inferInstanceAs (Decidable (_ ∧ _))

/-- The header belongs to the file and names a slot that is still empty. -/
def Admits (u : Upload mConfig) (h : Request.Header) : Prop :=
  h.mUuid = u.announced.mUuid ∧ h.mIndex.toNat < u.count ∧
    h.mIndex.toNat ∉ (u.messages.map Message.entry).map Prod.fst

/-- The upload right after its announcement. -/
def announce (pre : CharArray 16)
    (number : (announcement pre).mNumHorcruxes.toNat ≤ mConfig.mMaxNumHorcruxAccepted.toNat)
    (size : (announcement pre).mTotalSize.toNat ≤ mConfig.mMaxTotalSizeAccepted.toNat) :
    Upload mConfig where
  pre := pre
  messages := []
  number := number
  size := size
  uuid := by simp
  length := by simp
  fits := .nil _

/-- The upload with one more message. -/
def store (u : Upload mConfig) (m : Message) (ha : u.Admits m.head)
    (hl : m.content.length = m.head.mContentSize.toNat) : Upload mConfig where
  pre := u.pre
  messages := u.messages ++ [m]
  number := u.number
  size := u.size
  uuid := by
    intro x hx
    rcases List.mem_append.mp hx with hm | hm
    · exact u.uuid x hm
    · rw [List.mem_singleton.mp hm]
      exact ha.1
  length := by
    intro x hx
    rcases List.mem_append.mp hx with hm | hm
    · exact u.length x hm
    · rw [List.mem_singleton.mp hm]
      exact hl
  fits := by
    rw [List.map_append]
    exact u.fits.concat ha.2.1 ha.2.2

@[simp] theorem store_bytes (u : Upload mConfig) (m : Message) (ha : u.Admits m.head)
    (hl : m.content.length = m.head.mContentSize.toNat) :
    (u.store m ha hl).bytes = u.bytes ++ m.bytes := by
  simp [bytes, store]

@[simp] theorem store_slots (u : Upload mConfig) (m : Message) (ha : u.Admits m.head)
    (hl : m.content.length = m.head.mContentSize.toNat) :
    (u.store m ha hl).slots = u.slots.set m.head.mIndex.toNat (some ⟨m.content, []⟩) := by
  simp only [slots, store, List.map_append]
  exact Slots.fill_concat _ _ _

@[simp] theorem length_slots (u : Upload mConfig) : u.slots.length = u.count := by
  simp [slots]

theorem length_le (u : Upload mConfig) : u.messages.length ≤ u.count := by
  have h := u.fits.length_le
  rwa [List.length_map] at h

theorem Admits.not_complete {u : Upload mConfig} (ha : u.Admits h) : ¬ u.Complete := by
  intro h
  obtain ⟨hl, _⟩ := h
  have hp := u.fits.perm_range ((List.length_map _).trans hl)
  exact ha.2.2 (hp.mem_iff.mpr (List.mem_range.mpr ha.2.1))

theorem slots_empty_iff (u : Upload mConfig) (hi : i < u.count) :
    u.slots[i]? = some none ↔ i ∉ (u.messages.map Message.entry).map Prod.fst :=
  u.fits.getElem?_fill_none hi

theorem slots_all_isSome (u : Upload mConfig) :
    u.slots.all Option.isSome = true ↔ u.messages.length = u.count := by
  have h := u.fits.all_isSome_iff
  rw [List.length_map] at h
  exact h

end Upload

section Samples

/-- The announcement and the requests that a well-behaved client sends. -/
def preRequest (uuid : UInt64) (total number : UInt32) : CharArray 16 :=
  serializeHeader (⟨uuid, total, number⟩ : PreRequestHeader) noPadding

def request (uuid : UInt64) (index : UInt32) (content : Bytes) : Message where
  header := serializeHeader (⟨uuid, index, UInt32.ofNat content.length, 0⟩ : Request.Header)
    zeroPadding
  content := content

/-- The output directory with the given files in it. -/
def outDirectory (files : List (Path × Bytes)) : FileSystem :=
  fun p => if p = kOutPath then some .directory else (files.lookup p).map .file

def sampleStream : Bytes := (preRequest 7 2 1).val ++ (request 7 0 [104, 105]).bytes

end Samples
end Horcrux
