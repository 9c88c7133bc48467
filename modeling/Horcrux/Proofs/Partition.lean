import Horcrux.Proofs.Splitting

namespace Horcrux.Client.BasicFileSplitter
open Save

/-- Where the two iterators of a turn of split's loop point. -/
def beginOffset (horcruxSize : UInt32) (idx : Nat) : Nat :=
  (UInt32.ofNat idx * horcruxSize).toNat

def endOffset (mNumSplits horcruxSize : UInt32) (size idx : Nat) : Nat :=
  if UInt32.ofNat idx ≠ mNumSplits - 1 then (UInt32.ofNat (idx + 1) * horcruxSize).toNat else size

/-- Every iterator range that the loop computes is one. -/
def RangesValid (n : Nat) (d : Bytes) : Prop := ∀ idx < n,
  beginOffset (.ofNat (d.length / n)) idx ≤
    endOffset (.ofNat n) (.ofNat (d.length / n)) d.length idx ∧
  endOffset (.ofNat n) (.ofNat (d.length / n)) d.length idx ≤ d.length

/-- The lengths of the contents, in order. -/
def sizes (horcruxes : List HorcruxData) : List Nat := horcruxes.map fun hcx => hcx.mContent.length

/-- All contents have the length `h`, but the last one, whose length is `l`. -/
def evenSizes (n h l : Nat) : List Nat := List.replicate (n - 1) h ++ [l]

section
variable {n h : Nat} {d : Bytes} {hs : List HorcruxData}

theorem join_eq (horcruxes : List HorcruxData) :
    join horcruxes = horcruxes.flatMap HorcruxData.mContent := by
  have hfold : ∀ (hs : List HorcruxData) (acc : Bytes),
      hs.foldl (fun joinedHorcrux h => joinedHorcrux ++ h.mContent) acc =
        acc ++ hs.flatMap HorcruxData.mContent := by
    intro hs
    induction hs with
    | nil => simp
    | cons hcx hs ih =>
      intro acc
      rw [List.foldl_cons, ih, List.flatMap_cons, List.append_assoc]
  rw [join, hfold, List.nil_append]

theorem length_join (horcruxes : List HorcruxData) :
    (join horcruxes).length = (sizes horcruxes).sum := by
  rw [join_eq, List.length_flatMap, sizes]

theorem sizes_pieces (hle : (n - 1) * h ≤ d.length) :
    sizes (pieces n h d) = evenSizes n h (d.length - (n - 1) * h) := by
  have hinner : ∀ i ∈ List.range (n - 1), ((d.drop (i * h)).take h).length = h := by
    intro i hi
    have hend : (i + 1) * h ≤ (n - 1) * h :=
      Nat.mul_le_mul_right h (List.mem_range.mp hi)
    rw [Nat.succ_mul] at hend
    rw [List.length_take, List.length_drop]
    omega
  rw [sizes, pieces, evenSizes, List.map_append, List.map_map]
  congr 1
  · apply List.eq_replicate_iff.mpr
    refine ⟨by simp, ?_⟩
    intro l hl
    obtain ⟨i, hi, rfl⟩ := List.mem_map.mp hl
    exact hinner i hi
  · simp

/-- A turn of the loop goes through exactly on a valid range. -/
theorem piece_isSome_iff (mNumSplits horcruxSize : UInt32) (hi : idx + 1 < 2 ^ 31) :
    (piece mNumSplits horcruxSize d idx).isSome = true ↔
      beginOffset horcruxSize idx ≤ endOffset mNumSplits horcruxSize d.length idx ∧
        endOffset mNumSplits horcruxSize d.length idx ≤ d.length := by
  have he : piece mNumSplits horcruxSize d idx = (range d (beginOffset horcruxSize idx)
      (endOffset mNumSplits horcruxSize d.length idx)).map fun c => ⟨c, getChecksum c⟩ := by
    simp only [piece, hi, guard_true, beginOffset, endOffset]
    rw [Option.map_eq_bind]
    rfl
  rw [he, Option.isSome_map, range]
  split <;> simp_all

/-- The ranges are valid up to where the begin of the last one wraps around. -/
theorem rangesValid_iff (h1 : 1 ≤ n) (hn : n < 2 ^ 31) :
    RangesValid n d ↔ (n - 1) * pieceSize n d < 2 ^ 32 := by
  have hturn : RangesValid n d ↔
      ∀ idx < n, (piece (.ofNat n) (.ofNat (d.length / n)) d idx).isSome = true :=
    forall₂_congr fun idx hi => (piece_isSome_iff _ _ (by omega)).symm
  rw [hturn]
  constructor
  · intro hall
    by_contra hw
    obtain ⟨i, hi, hb, he⟩ := exists_wrap (Nat.le_of_not_lt hw)
    have hsome := hall i (by omega)
    rw [piece_inverted (by omega) hi hb he] at hsome
    cases hsome
  · intro hw idx hi
    by_cases hlast : idx = n - 1
    · rw [hlast, piece_last h1 hn hw]
      rfl
    · rw [piece_inner hn (by omega) hw]
      rfl

/-- A file is split without loss exactly where no offset of the loop wraps around, even
where the size of a piece has been cut down to its lower 32 bits. -/
theorem split_lossless_iff (h1 : 1 ≤ n) (hn : n < 2 ^ 31) (hl : n ≤ d.length) :
    (RangesValid n d ↔ (n - 1) * pieceSize n d < 2 ^ 32) ∧
    (RangesValid n d → ∃ hs, split (.ofNat n) d = some hs ∧ join hs = d ∧
      sizes hs = evenSizes n (pieceSize n d) (d.length - (n - 1) * pieceSize n d)) := by
  refine ⟨rangesValid_iff h1 hn, ?_⟩
  intro hv
  refine ⟨_, split_defined h1 hn hl ((rangesValid_iff h1 hn).mp hv), ?_, ?_⟩
  · rw [join_eq, flatMap_pieces]
  · exact sizes_pieces (lastOffset_le n d)

theorem split_lossless_sample : ∃ hs, split 2 [1, 2, 3] = some hs ∧ join hs = [1, 2, 3] ∧
    sizes hs = [1, 2] :=
  have h := split_lossless_iff (n := 2) (d := [1, 2, 3]) (by decide) (by decide) (by decide)
  h.2 (h.1.mpr (by decide))

/-- The file cut into `n` horcruxes as evenly as the floor allows. -/
structure BalancedPartition (n : Nat) (d : Bytes) (horcruxes : List HorcruxData) : Prop where
  positive : 1 ≤ d.length / n
  sizes : sizes horcruxes = evenSizes n (d.length / n) (d.length / n + d.length % n)
  joined : join horcruxes = d

/-- The last size of an even cut is what the others leave. -/
theorem last_size (h1 : 1 ≤ n) (d : Bytes) :
    d.length - (n - 1) * (d.length / n) = d.length / n + d.length % n := by
  have hdiv := Nat.div_add_mod d.length n
  have hpred : n * (d.length / n) = (n - 1) * (d.length / n) + d.length / n := by
    rw [← Nat.succ_mul, Nat.succ_eq_add_one, Nat.sub_add_cancel h1]
  generalize d.length / n = q at *
  omega

theorem split_overflow (hn : 2 ^ 31 ≤ n) (hlt : n < 2 ^ 32) (hl : n ≤ d.length) :
    split (.ofNat n) d = none := by
  rw [split_eq_mapM (by omega) hlt hl]
  apply Lists.mapM_eq_none (x := 2 ^ 31 - 1) (List.mem_range.mpr (by omega))
  rfl

/-- Where neither the loop counter nor the undiminished offsets leave their types, the
stored size of a piece is the true one. -/
theorem pieceSize_eq (h2 : 2 ≤ n) (hw : (n - 1) * (d.length / n) < 2 ^ 32) :
    pieceSize n d = d.length / n := by
  apply Nat.mod_eq_of_lt
  calc d.length / n ≤ (n - 1) * (d.length / n) := Nat.le_mul_of_pos_left _ (by omega)
    _ < 2 ^ 32 := hw

/-- Split is a balanced partition exactly where the counter fits in 31 bits and the
offset of the last piece in 32. -/
theorem balanced_partition_iff (mNumSplits : UInt32) (d : Bytes) (h1 : 1 ≤ mNumSplits.toNat)
    (hl : mNumSplits.toNat ≤ d.length) :
    (∃ hs, split mNumSplits d = some hs ∧ hs.length = mNumSplits.toNat ∧
      BalancedPartition mNumSplits.toNat d hs) ↔
    mNumSplits.toNat < 2 ^ 31 ∧
      (mNumSplits.toNat - 1) * (d.length / mNumSplits.toNat) < 2 ^ 32 := by
  have hofNat : UInt32.ofNat mNumSplits.toNat = mNumSplits := UInt32.ofNat_toNat
  have hlt := mNumSplits.toNat_lt
  generalize mNumSplits.toNat = n at *
  subst hofNat
  constructor
  · intro h
    obtain ⟨hs, hsplit, _, hp⟩ := h
    have hn : n < 2 ^ 31 := by
      by_contra hge
      rw [split_overflow (Nat.le_of_not_lt hge) hlt hl] at hsplit
      cases hsplit
    refine ⟨hn, ?_⟩
    have hw : (n - 1) * pieceSize n d < 2 ^ 32 := by
      by_contra hge
      rw [split_undefined h1 hlt hl (Nat.le_of_not_lt hge)] at hsplit
      cases hsplit
    rw [split_defined h1 hn hl hw] at hsplit
    cases hsplit
    -- a piece before the last one shows the size that was stored
    have hsizes := hp.sizes
    rw [sizes_pieces (lastOffset_le n d)] at hsizes
    by_cases hone : n = 1
    · simp [hone]
    · have hrep := (List.append_inj hsizes (by simp)).1
      rw [List.replicate_inj] at hrep
      have hsize : pieceSize n d = d.length / n := hrep.2.resolve_left (by omega)
      rwa [hsize] at hw
  · intro h
    obtain ⟨hn, hw⟩ := h
    by_cases hone : n = 1
    · subst hone
      refine ⟨_, split_defined h1 hn hl (by simp), length_pieces h1 _ d, ?_, ?_, ?_⟩
      · exact Nat.div_pos hl h1
      · rw [sizes_pieces (lastOffset_le 1 d)]
        simp [evenSizes, Nat.mod_one]
      · rw [join_eq, flatMap_pieces]
    · have hsize := pieceSize_eq (by omega) hw
      refine ⟨_, split_defined h1 hn hl (by rwa [hsize]), length_pieces h1 _ d, ?_, ?_, ?_⟩
      · exact Nat.div_pos hl h1
      · rw [sizes_pieces (lastOffset_le n d), hsize, last_size h1]
      · rw [join_eq, flatMap_pieces]

theorem balanced_partition_sample :
    ∃ hs, split 2 [1, 2, 3] = some hs ∧ hs.length = 2 ∧ BalancedPartition 2 [1, 2, 3] hs :=
  (balanced_partition_iff 2 [1, 2, 3] (by decide) (by decide)).mpr (by decide)

/-- Of a file of 2^33 bytes the first of two pieces gets none. -/
theorem partition_unbalanced : ¬ ∀ (mNumSplits : UInt32) (d : Bytes), 1 ≤ mNumSplits.toNat →
    mNumSplits.toNat ≤ d.length → ∃ hs, split mNumSplits d = some hs ∧
      hs.length = mNumSplits.toNat ∧ BalancedPartition mNumSplits.toNat d hs := by
  intro h
  obtain ⟨d, hlen⟩ : ∃ d : Bytes, d.length = 2 ^ 33 :=
    ⟨List.replicate (2 ^ 33) 0, List.length_replicate⟩
  have htwo : (2 : UInt32).toNat = 2 := rfl
  obtain ⟨hs, hsplit, _, hp⟩ := h 2 d (by decide) (by rw [htwo]; omega)
  have hz : pieceSize 2 d = 0 := by
    rw [pieceSize, hlen]
    decide
  have hd : split 2 d = some (pieces 2 (pieceSize 2 d) d) :=
    split_defined (n := 2) (by decide) (by decide) (by omega) (by rw [hz]; decide)
  cases hd.symm.trans hsplit
  have hsizes := hp.sizes
  rw [sizes_pieces (lastOffset_le 2 d), hz, htwo, hlen] at hsizes
  simp [evenSizes] at hsizes

/-- Contents are told apart by their sizes and by what they join to. -/
theorem contents_eq_iff {hs hs' : List HorcruxData} :
    hs.map HorcruxData.mContent = hs'.map HorcruxData.mContent ↔
      join hs = join hs' ∧ sizes hs = sizes hs' := by
  rw [List.eq_iff_flatten_eq, join_eq, join_eq, List.flatMap_def, List.flatMap_def, List.map_map,
    List.map_map]
  rfl

theorem sizes_eq_evenSizes_iff (hne : hs ≠ []) : sizes hs = evenSizes hs.length h l ↔
    (∀ hcx ∈ hs.dropLast, hcx.mContent.length = h) ∧ (hs.getLast hne).mContent.length = l := by
  have hsplit : sizes hs = sizes hs.dropLast ++ [(hs.getLast hne).mContent.length] := by
    conv_lhs => rw [← List.dropLast_append_getLast hne]
    simp [sizes]
  have hinner : sizes hs.dropLast = List.replicate (hs.length - 1) h ↔
      ∀ hcx ∈ hs.dropLast, hcx.mContent.length = h := by
    rw [List.eq_replicate_iff, sizes, List.length_map, List.length_dropLast, List.forall_mem_map]
    simp
  rw [hsplit, evenSizes, ← hinner]
  constructor
  · intro he
    obtain ⟨hi, hlast⟩ := List.append_inj he (by simp [sizes])
    exact ⟨hi, List.head_eq_of_cons_eq hlast⟩
  · intro he
    rw [he.1, he.2]

theorem sum_evenSizes (n h l : Nat) : (evenSizes n h l).sum = (n - 1) * h + l := by
  simp [evenSizes]

/-- A length is the size of an even cut exactly when it is the floor. -/
theorem div_eq_of_even (h1 : 1 ≤ n) (hlow : h ≤ l) (hhigh : l ≤ h + n - 1) :
    ((n - 1) * h + l) / n = h := by
  have hpred : (n - 1) * h + h = n * h := by
    rw [← Nat.succ_mul, Nat.succ_eq_add_one, Nat.sub_add_cancel h1]
  have he : (n - 1) * h + l = (l - h) + n * h := by omega
  rw [he, Nat.add_mul_div_left _ _ h1, Nat.div_eq_of_lt (by omega), Nat.zero_add]

/-- Split undoes join exactly on the lists that split itself can give. -/
theorem split_join_iff (hne : hs ≠ []) (hn : hs.length < 2 ^ 31) (hsum : aggregate hs < 2 ^ 32) :
    (∃ hs', split (.ofNat hs.length) (join hs) = some hs' ∧
      hs'.map HorcruxData.mContent = hs.map HorcruxData.mContent) ↔
    ∃ h, 1 ≤ h ∧ (∀ hcx ∈ hs.dropLast, hcx.mContent.length = h) ∧
      h ≤ (hs.getLast hne).mContent.length ∧
      (hs.getLast hne).mContent.length ≤ h + hs.length - 1 := by
  have h1 : 1 ≤ hs.length := List.length_pos_of_ne_nil hne
  have hd : (join hs).length = (sizes hs).sum := length_join hs
  have hlt : (join hs).length < 2 ^ 32 := hd.trans_lt hsum
  have hsize : pieceSize hs.length (join hs) = (join hs).length / hs.length :=
    Nat.mod_eq_of_lt ((Nat.div_le_self _ _).trans_lt hlt)
  constructor
  · intro hex
    obtain ⟨hs', hsplit, hc⟩ := hex
    have hl : hs.length ≤ (join hs).length := by
      by_contra hge
      rw [split_refused (by omega) (.inr (Nat.lt_of_not_le hge))] at hsplit
      cases hsplit
      exact hne (List.map_eq_nil_iff.mp hc.symm)
    rw [split_defined h1 hn hl ((lastOffset_le _ _).trans_lt hlt)] at hsplit
    cases hsplit
    have hsizes := (contents_eq_iff.mp hc).2
    rw [sizes_pieces (lastOffset_le _ _), hsize, last_size h1] at hsizes
    obtain ⟨hinner, hlast⟩ := (sizes_eq_evenSizes_iff hne).mp hsizes.symm
    have hmod := Nat.mod_lt (join hs).length h1
    refine ⟨_, Nat.div_pos hl h1, hinner, ?_, ?_⟩
    · rw [hlast]
      exact Nat.le_add_right _ _
    · rw [hlast]
      generalize (join hs).length / hs.length = q
      omega
  · intro hex
    obtain ⟨h, hpos, hinner, hlow, hhigh⟩ := hex
    have hsizes := (sizes_eq_evenSizes_iff hne).mpr ⟨hinner, rfl⟩
    have htotal : (join hs).length = (hs.length - 1) * h + (hs.getLast hne).mContent.length := by
      rw [hd, hsizes, sum_evenSizes]
    have hdiv : (join hs).length / hs.length = h := by
      rw [htotal]
      exact div_eq_of_even h1 hlow hhigh
    have hl : hs.length ≤ (join hs).length := by
      have hmul := Nat.le_mul_of_pos_right (hs.length - 1) hpos
      omega
    refine ⟨_, split_defined h1 hn hl ((lastOffset_le _ _).trans_lt hlt), contents_eq_iff.mpr ?_⟩
    refine ⟨by rw [join_eq, flatMap_pieces], ?_⟩
    rw [sizes_pieces (lastOffset_le _ _), hsize, hdiv, hsizes, htotal, Nat.add_sub_cancel_left]

theorem split_join_sample :
    ∃ hs', split 2 (join [⟨[1], []⟩, ⟨[2, 3], [4]⟩]) = some hs' ∧
      hs'.map HorcruxData.mContent = [[1], [2, 3]] :=
  (split_join_iff (List.cons_ne_nil (⟨[1], []⟩ : HorcruxData) [⟨[2, 3], [4]⟩])
    (by decide) (by decide)).mpr ⟨1, by decide, by decide, by decide, by decide⟩

end
end Horcrux.Client.BasicFileSplitter
