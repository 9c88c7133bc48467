import Horcrux.Requests
import Mathlib.Algebra.Order.BigOperators.Group.List

namespace Horcrux.Save
open LittleEndian Utils

/-- A field is read back from between the bytes before and after it. -/
theorem field_append (xs ys zs : Bytes) (hx : xs.length = i) (hy : ys.length = w) :
    field (xs ++ (ys ++ zs)) i w = decode ys := by
  rw [field, List.drop_left' hx, List.take_left' hy]

theorem ofNat_decode_encode64 (n : UInt64) : UInt64.ofNat (decode (encode 8 n.toNat)) = n := by
  have hlt : n.toNat < 256 ^ 8 := n.toNat_lt
  rw [decode_encode, Nat.mod_eq_of_lt hlt, UInt64.ofNat_toNat]

theorem ofNat_decode_encode32 (n : UInt32) : UInt32.ofNat (decode (encode 4 n.toNat)) = n := by
  have hlt : n.toNat < 256 ^ 4 := n.toNat_lt
  rw [decode_encode, Nat.mod_eq_of_lt hlt, UInt32.ofNat_toNat]

theorem deserialize_preRequestHeader (h : PreRequestHeader)
    (padding : CharArray (Layout.padding PreRequestHeader)) :
    deserializeHeader (serializeHeader h padding) = h := by
  have h0 := field_append (i := 0) [] (encode 8 h.mUuid.toNat)
    (encode 4 h.mTotalSize.toNat ++ encode 4 h.mNumHorcruxes.toNat) rfl (length_encode _ _)
  have h8 := field_append (i := 8) (encode 8 h.mUuid.toNat) (encode 4 h.mTotalSize.toNat)
    (encode 4 h.mNumHorcruxes.toNat) (length_encode _ _) (length_encode _ _)
  have h12 := field_append (i := 12) (encode 8 h.mUuid.toNat ++ encode 4 h.mTotalSize.toNat)
    (encode 4 h.mNumHorcruxes.toNat) [] (by simp) (length_encode _ _)
  simp only [List.nil_append, List.append_nil, List.append_assoc] at h0 h8 h12
  simp only [deserializeHeader, serializeHeader, Layout.load, Layout.store, List.append_assoc, h0,
    h8, h12, ofNat_decode_encode64, ofNat_decode_encode32]

/-- The padding has no part in what the receiver decodes. -/
theorem deserialize_requestHeader (h : Request.Header)
    (padding : CharArray (Layout.padding Request.Header)) :
    deserializeHeader (serializeHeader h padding) = h := by
  have h0 := field_append (i := 0) [] (encode 8 h.mUuid.toNat)
    (encode 4 h.mIndex.toNat ++ (encode 4 h.mContentSize.toNat ++
      (encode 4 h.mChecksumSize.toNat ++ padding.val))) rfl (length_encode _ _)
  have h8 := field_append (i := 8) (encode 8 h.mUuid.toNat) (encode 4 h.mIndex.toNat)
    (encode 4 h.mContentSize.toNat ++ (encode 4 h.mChecksumSize.toNat ++ padding.val))
    (length_encode _ _) (length_encode _ _)
  have h12 := field_append (i := 12) (encode 8 h.mUuid.toNat ++ encode 4 h.mIndex.toNat)
    (encode 4 h.mContentSize.toNat) (encode 4 h.mChecksumSize.toNat ++ padding.val)
    (by simp) (length_encode _ _)
  have h16 := field_append (i := 16) (encode 8 h.mUuid.toNat ++ (encode 4 h.mIndex.toNat ++
    encode 4 h.mContentSize.toNat)) (encode 4 h.mChecksumSize.toNat) padding.val
    (by simp) (length_encode _ _)
  simp only [List.nil_append, List.append_assoc] at h0 h8 h12 h16
  simp only [deserializeHeader, serializeHeader, Layout.load, Layout.store, List.append_assoc, h0,
    h8, h12, h16, ofNat_decode_encode64, ofNat_decode_encode32]

theorem field_lt (bs : Bytes) (i w : Nat) : field bs i w < 256 ^ w := by
  have hlt := decode_lt ((bs.drop i).take w)
  exact hlt.trans_le (Nat.pow_le_pow_right (by decide) (List.length_take_le _ _))

/-- A field that lies within the object gives back its bytes. -/
theorem encode_field {bs : Bytes} (h : i + w ≤ bs.length) :
    encode w (field bs i w) = (bs.drop i).take w := by
  have hlen : ((bs.drop i).take w).length = w := by
    rw [List.length_take, List.length_drop]
    omega
  have he := encode_decode ((bs.drop i).take w)
  rwa [hlen] at he

theorem encode_field64 {bs : Bytes} (h : i + 8 ≤ bs.length) :
    encode 8 (UInt64.ofNat (field bs i 8)).toNat = (bs.drop i).take 8 := by
  rw [UInt64.toNat_ofNat_of_lt' (field_lt bs i 8), encode_field h]

theorem encode_field32 {bs : Bytes} (h : i + 4 ≤ bs.length) :
    encode 4 (UInt32.ofNat (field bs i 4)).toNat = (bs.drop i).take 4 := by
  rw [UInt32.toNat_ofNat_of_lt' (field_lt bs i 4), encode_field h]

/-- Every array of sixteen bytes is the representation of one pre-request header. -/
theorem serialize_preRequestHeader (b : CharArray 16) :
    serializeHeader (deserializeHeader b : PreRequestHeader) noPadding = b := by
  have hlen := b.property
  apply Subtype.ext
  change encode 8 (UInt64.ofNat (field b.val 0 8)).toNat ++
    encode 4 (UInt32.ofNat (field b.val 8 4)).toNat ++
    encode 4 (UInt32.ofNat (field b.val 12 4)).toNat = b.val
  rw [encode_field64 (by omega), encode_field32 (by omega), encode_field32 (by omega),
    List.drop_zero, ← List.take_add, ← List.take_add, List.take_of_length_le (by omega)]

/-- A request header is represented by its first twenty bytes; the others are padding. -/
theorem serialize_requestHeader (b : CharArray 24) (padding : CharArray 4) :
    (serializeHeader (deserializeHeader b : Request.Header) padding).val =
      b.val.take 20 ++ padding.val := by
  have hlen := b.property
  change encode 8 (UInt64.ofNat (field b.val 0 8)).toNat ++
    encode 4 (UInt32.ofNat (field b.val 8 4)).toNat ++
    encode 4 (UInt32.ofNat (field b.val 12 4)).toNat ++
    encode 4 (UInt32.ofNat (field b.val 16 4)).toNat ++ padding.val = _
  rw [encode_field64 (by omega), encode_field32 (by omega), encode_field32 (by omega),
    encode_field32 (by omega), List.drop_zero, ← List.take_add, ← List.take_add, ← List.take_add]

/-- Two arrays are decoded to one request header exactly when they differ in the padding
only. -/
theorem requestHeader_eq_iff (a b : CharArray 24) :
    (deserializeHeader a : Request.Header) = deserializeHeader b ↔
      a.val.take 20 = b.val.take 20 := by
  constructor
  · intro h
    have ha := serialize_requestHeader a zeroPadding
    rw [h, serialize_requestHeader] at ha
    exact (List.append_cancel_right ha).symm
  · intro h
    have hlen : (a.val.drop 20).length = 4 := by
      rw [List.length_drop, a.property]
    -- `a` is what the header of `b` looks like with the padding of `a`
    have ha : a = serializeHeader (deserializeHeader b : Request.Header) ⟨a.val.drop 20, hlen⟩ := by
      apply Subtype.ext
      rw [serialize_requestHeader, ← h, List.take_append_drop]
    rw [ha]
    exact deserialize_requestHeader _ _

/-- The header codecs are exact inverses of each other, up to the padding. -/
theorem header_codecs_exact :
    (∀ (h : PreRequestHeader) (padding : CharArray (Layout.padding PreRequestHeader)),
      deserializeHeader (serializeHeader h padding) = h) ∧
    (∀ (h : Request.Header) (padding : CharArray (Layout.padding Request.Header)),
      deserializeHeader (serializeHeader h padding) = h) ∧
    (∀ b : CharArray 16, serializeHeader (deserializeHeader b : PreRequestHeader) noPadding = b) ∧
    ∀ a b : CharArray 24, (deserializeHeader a : Request.Header) = deserializeHeader b ↔
      a.val.take 20 = b.val.take 20 :=
  ⟨deserialize_preRequestHeader, deserialize_requestHeader, serialize_preRequestHeader,
    requestHeader_eq_iff⟩

/-- The aggregate size of the horcruxes. -/
def aggregate (horcruxes : List HorcruxData) : Nat :=
  (horcruxes.map fun hcx => hcx.mContent.length).sum

/-- The total wraps around with the type of its field. -/
theorem PreRequestHeader.fromHorcruxes_eq (uuid : UInt64) (horcruxes : List HorcruxData) :
    fromHorcruxes uuid horcruxes =
      ⟨uuid, .ofNat (aggregate horcruxes), .ofNat horcruxes.length⟩ := by
  have hfold : ∀ (hs : List HorcruxData) (header : PreRequestHeader), hs.foldl
      (fun header hcx => { header with
        mTotalSize := header.mTotalSize + UInt32.ofNat hcx.mContent.length }) header =
      { header with mTotalSize := header.mTotalSize + .ofNat (aggregate hs) } := by
    intro hs
    induction hs with
    | nil => intro header; simp [aggregate]
    | cons hcx hs ih =>
      intro header
      rw [List.foldl_cons, ih]
      simp [aggregate, UInt32.ofNat_add, UInt32.add_assoc]
  rw [fromHorcruxes, hfold]
  simp

/-- The request of one horcrux. -/
def Request.of (uuid : UInt64) (index : Nat) (hcx : HorcruxData) : Request where
  mHeader := { mUuid := uuid, mIndex := .ofNat index, mContentSize := .ofNat hcx.mContent.length }
  mContent := hcx.mContent
  mChecksum := hcx.mChecksum

theorem Request.fromHorcruxes_eq (uuid : UInt64) (horcruxes : List HorcruxData) :
    fromHorcruxes uuid horcruxes = horcruxes.mapIdx (Request.of uuid) := by
  have hfold : ∀ (hs : List HorcruxData) (requests : List Request), hs.foldl
      (fun requests hcx => requests ++ [{
        mHeader := { mUuid := uuid, mIndex := UInt32.ofNat requests.length,
                     mContentSize := UInt32.ofNat hcx.mContent.length }
        mContent := hcx.mContent
        mChecksum := hcx.mChecksum }]) requests =
      requests ++ hs.mapIdx fun i => Request.of uuid (requests.length + i) := by
    intro hs
    induction hs with
    | nil => intro requests; simp
    | cons hcx hs ih =>
      intro requests
      rw [List.foldl_cons, ih, List.mapIdx_cons]
      simp [Request.of, Nat.add_assoc, Nat.add_comm 1]
  rw [fromHorcruxes, hfold]
  simp

theorem mem_fromHorcruxes {uuid : UInt64} {horcruxes : List HorcruxData} {r : Request} :
    r ∈ Request.fromHorcruxes uuid horcruxes ↔
      ∃ (i : Nat) (hi : i < horcruxes.length), Request.of uuid i horcruxes[i] = r := by
  rw [Request.fromHorcruxes_eq, List.mem_mapIdx]

theorem length_le_aggregate {horcruxes : List HorcruxData} (h : hcx ∈ horcruxes) :
    hcx.mContent.length ≤ aggregate horcruxes :=
  List.single_le_sum (fun _ _ => Nat.zero_le _) _ (List.mem_map_of_mem h)

/-- The builders announce the true sizes: of all contents together, of each content and
of each checksum. -/
structure TrueSizes (uuid : UInt64) (horcruxes : List HorcruxData) : Prop where
  total : (PreRequestHeader.fromHorcruxes uuid horcruxes).mTotalSize.toNat = aggregate horcruxes
  content : ∀ r ∈ Request.fromHorcruxes uuid horcruxes,
    r.mHeader.mContentSize.toNat = r.mContent.length
  checksum : ∀ r ∈ Request.fromHorcruxes uuid horcruxes,
    r.mHeader.mChecksumSize.toNat = r.mChecksum.length

/-- They do so exactly when the total fits in its field and no horcrux has a checksum,
since no builder ever sets `mChecksumSize`. -/
theorem true_sizes_iff (uuid : UInt64) (horcruxes : List HorcruxData) :
    TrueSizes uuid horcruxes ↔
      aggregate horcruxes < 2 ^ 32 ∧ ∀ hcx ∈ horcruxes, hcx.mChecksum = [] := by
  constructor
  · intro h
    refine ⟨?_, ?_⟩
    · rw [← h.total]
      exact UInt32.toNat_lt _
    · intro hcx hm
      obtain ⟨i, hi, rfl⟩ := List.mem_iff_getElem.mp hm
      have hz := h.checksum _ (mem_fromHorcruxes.mpr ⟨i, hi, rfl⟩)
      exact List.eq_nil_of_length_eq_zero hz.symm
  · intro h
    obtain ⟨hlt, hnone⟩ := h
    refine ⟨?_, ?_, ?_⟩
    · rw [PreRequestHeader.fromHorcruxes_eq]
      exact UInt32.toNat_ofNat_of_lt' hlt
    · intro r hr
      obtain ⟨i, hi, rfl⟩ := mem_fromHorcruxes.mp hr
      have hle := length_le_aggregate (List.getElem_mem hi)
      exact UInt32.toNat_ofNat_of_lt' (hle.trans_lt hlt)
    · intro r hr
      obtain ⟨i, hi, rfl⟩ := mem_fromHorcruxes.mp hr
      have he : (Request.of uuid i horcruxes[i]).mChecksum = [] := hnone _ (List.getElem_mem hi)
      rw [he]
      rfl

theorem true_sizes_missed : ¬ ∀ (uuid : UInt64) (horcruxes : List HorcruxData),
    TrueSizes uuid horcruxes := by
  intro h
  have hz := (h 7 [⟨[104, 105], [33]⟩]).checksum ⟨⟨7, 0, 2, 0⟩, [104, 105], [33]⟩ (by decide)
  exact absurd hz (by decide)

end Horcrux.Save
