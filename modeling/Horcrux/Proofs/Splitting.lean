import Horcrux.Lib.Lists
import Horcrux.Proofs.Files
import Horcrux.Proofs.Requests
import Mathlib.Tactic.Ring

namespace Horcrux.Client.BasicFileSplitter
open Save

/-- Pieces of one size, put together again. -/
theorem flatMap_range_pieces (d : List α) (h k : Nat) :
    ((List.range k).flatMap fun i => (d.drop (i * h)).take h) = d.take (k * h) := by
  induction k with
  | zero => simp
  | succ k ih =>
    have hsplit : d.take ((k + 1) * h) = d.take (k * h) ++ (d.drop (k * h)).take h := by
      rw [← List.take_add, Nat.succ_mul]
    rw [List.range_succ, List.flatMap_append, ih, hsplit]
    simp

/-- What the file is cut into: the last piece takes all that is left. -/
def pieces (n h : Nat) (d : Bytes) : List HorcruxData :=
  ((List.range (n - 1)).map fun i => ⟨(d.drop (i * h)).take h, []⟩) ++ [⟨d.drop ((n - 1) * h), []⟩]

/-- `horcruxSize`, which is narrowed to 32 bits. -/
def pieceSize (n : Nat) (d : Bytes) : Nat := d.length / n % 2 ^ 32

section
variable {n : Nat} {d : Bytes}

theorem pieceSize_le (n : Nat) (d : Bytes) : n * pieceSize n d ≤ d.length := by
  have hmod : pieceSize n d ≤ d.length / n := Nat.mod_le _ _
  calc n * pieceSize n d ≤ n * (d.length / n) := Nat.mul_le_mul_left n hmod
    _ ≤ d.length := Nat.mul_div_le _ _

theorem lastOffset_le (n : Nat) (d : Bytes) : (n - 1) * pieceSize n d ≤ d.length :=
  (Nat.mul_le_mul_right _ (Nat.sub_le n 1)).trans (pieceSize_le n d)

theorem toNat_mul_pieceSize (n : Nat) (d : Bytes) (hi : i < 2 ^ 32) :
    (UInt32.ofNat i * UInt32.ofNat (d.length / n)).toNat = i * pieceSize n d % 2 ^ 32 := by
  rw [UInt32.toNat_mul, UInt32.toNat_ofNat_of_lt' hi, UInt32.toNat_ofNat']
  rfl

theorem ofNat_ne_last (hn : 1 ≤ n) (hlt : n < 2 ^ 32) (hi : i < n) :
    UInt32.ofNat i ≠ UInt32.ofNat n - 1 ↔ i ≠ n - 1 := by
  have hlast : UInt32.ofNat n - 1 = UInt32.ofNat (n - 1) := (UInt32.ofNat_sub hn).symm
  rw [hlast, not_iff_not]
  constructor
  · intro h
    exact ofNat_inj_of_lt (by omega) (by omega) h
  · intro h
    rw [h]

/-- A piece before the last one. -/
theorem piece_inner (hn : n < 2 ^ 31) (hi : i + 1 < n) (hw : (n - 1) * pieceSize n d < 2 ^ 32) :
    piece (.ofNat n) (.ofNat (d.length / n)) d i =
      some ⟨(d.drop (i * pieceSize n d)).take (pieceSize n d), []⟩ := by
  have hle := pieceSize_le n d
  have hend : (i + 1) * pieceSize n d ≤ (n - 1) * pieceSize n d :=
    Nat.mul_le_mul_right _ (by omega)
  have hall : (n - 1) * pieceSize n d ≤ n * pieceSize n d := Nat.mul_le_mul_right _ (by omega)
  have hsucc : (i + 1) * pieceSize n d = i * pieceSize n d + pieceSize n d := Nat.succ_mul _ _
  have hguard : i + 1 < 2 ^ 31 := by omega
  simp only [piece, hguard, guard_true, if_pos ((ofNat_ne_last (by omega) (by omega)
    (by omega : i < n)).mpr (by omega)), toNat_mul_pieceSize n d (by omega : i < 2 ^ 32),
    toNat_mul_pieceSize n d (by omega : i + 1 < 2 ^ 32)]
  rw [Nat.mod_eq_of_lt (by omega), Nat.mod_eq_of_lt (by omega), range,
    if_pos (by omega : _ ∧ _), hsucc, Nat.add_sub_cancel_left]
  rfl

theorem piece_last (h1 : 1 ≤ n) (hn : n < 2 ^ 31) (hw : (n - 1) * pieceSize n d < 2 ^ 32) :
    piece (.ofNat n) (.ofNat (d.length / n)) d (n - 1) =
      some ⟨d.drop ((n - 1) * pieceSize n d), []⟩ := by
  have hle := pieceSize_le n d
  have hall : (n - 1) * pieceSize n d ≤ n * pieceSize n d := Nat.mul_le_mul_right _ (by omega)
  have hguard : n - 1 + 1 < 2 ^ 31 := by omega
  simp only [piece, hguard, guard_true, if_neg (fun h => (ofNat_ne_last h1 (by omega)
    (by omega : n - 1 < n)).mp h rfl), toNat_mul_pieceSize n d (by omega : n - 1 < 2 ^ 32)]
  rw [Nat.mod_eq_of_lt hw, range, if_pos (by omega : _ ∧ _), ← List.length_drop, List.take_length]
  rfl

/-- A piece whose end has wrapped around while its begin has not. -/
theorem piece_inverted (hn : n < 2 ^ 32) (hi : i + 1 < n) (hb : i * pieceSize n d < 2 ^ 32)
    (he : 2 ^ 32 ≤ (i + 1) * pieceSize n d) :
    piece (.ofNat n) (.ofNat (d.length / n)) d i = none := by
  by_cases hguard : i + 1 < 2 ^ 31
  · have hsize : pieceSize n d < 2 ^ 32 := Nat.mod_lt _ (by decide)
    have hsucc : (i + 1) * pieceSize n d = i * pieceSize n d + pieceSize n d := Nat.succ_mul _ _
    simp only [piece, hguard, guard_true, if_pos ((ofNat_ne_last (by omega) hn
      (by omega : i < n)).mpr (by omega)), toNat_mul_pieceSize n d (by omega : i < 2 ^ 32),
      toNat_mul_pieceSize n d (by omega : i + 1 < 2 ^ 32)]
    rw [range, if_neg (by omega : ¬ (_ ∧ _))]
    rfl
  · simp only [piece, hguard, guard_false]
    rfl

theorem split_eq_mapM (h1 : 1 ≤ n) (hlt : n < 2 ^ 32) (hl : n ≤ d.length) :
    split (.ofNat n) d =
      (List.range n).mapM (piece (.ofNat n) (.ofNat (d.length / n)) d) := by
  have hn : (UInt32.ofNat n).toNat = n := UInt32.toNat_ofNat_of_lt' hlt
  have hz : UInt32.ofNat n ≠ 0 := by
    intro h
    have ht := congrArg UInt32.toNat h
    rw [hn] at ht
    exact absurd ht (by simp; omega)
  rw [split, if_neg hz, hn, if_neg (by omega)]

/-- Where the offsets do not wrap around, split gives the pieces. -/
theorem split_defined (h1 : 1 ≤ n) (hn : n < 2 ^ 31) (hl : n ≤ d.length)
    (hw : (n - 1) * pieceSize n d < 2 ^ 32) :
    split (.ofNat n) d = some (pieces n (pieceSize n d) d) := by
  have hrange : List.range n = List.range (n - 1) ++ [n - 1] := by
    obtain ⟨k, rfl⟩ : ∃ k, n = k + 1 := ⟨n - 1, by omega⟩
    exact List.range_succ
  rw [split_eq_mapM h1 (by omega) hl, hrange, List.mapM_append,
    Lists.mapM_eq_some fun i hi => piece_inner hn (by rw [List.mem_range] at hi; omega) hw,
    List.mapM_cons, piece_last h1 hn hw]
  rfl

/-- The first end offset that wraps around belongs to a piece whose begin has not. -/
theorem exists_wrap {n h : Nat} (hw : 2 ^ 32 ≤ (n - 1) * h) :
    ∃ i, i + 1 < n ∧ i * h < 2 ^ 32 ∧ 2 ^ 32 ≤ (i + 1) * h := by
  have hpos : 0 < h := by
    rcases Nat.eq_zero_or_pos h with hz | hpos
    · rw [hz] at hw
      omega
    · exact hpos
  have hdiv := Nat.div_add_mod' (2 ^ 32 - 1) h
  have hmod := Nat.mod_lt (2 ^ 32 - 1) hpos
  have hb : (2 ^ 32 - 1) / h * h < 2 ^ 32 := by omega
  have he : 2 ^ 32 ≤ ((2 ^ 32 - 1) / h + 1) * h := by
    rw [Nat.succ_mul]
    omega
  have hi : (2 ^ 32 - 1) / h < n - 1 := by
    by_contra hge
    have hmul := Nat.mul_le_mul_right h (Nat.le_of_not_lt hge)
    omega
  exact ⟨_, Nat.add_lt_of_lt_sub hi, hb, he⟩

/-- Where an offset wraps around, split runs into an inverted range. -/
theorem split_undefined (h1 : 1 ≤ n) (hlt : n < 2 ^ 32) (hl : n ≤ d.length)
    (hw : 2 ^ 32 ≤ (n - 1) * pieceSize n d) : split (.ofNat n) d = none := by
  obtain ⟨i, hi, hb, he⟩ := exists_wrap hw
  rw [split_eq_mapM h1 hlt hl]
  apply Lists.mapM_eq_none (List.mem_range.mpr (by omega)) (piece_inverted hlt hi hb he)

theorem split_length (h1 : 1 ≤ n) (hlt : n < 2 ^ 32) (hl : n ≤ d.length)
    (h : split (.ofNat n) d = some hs) : hs.length = n := by
  rw [split_eq_mapM h1 hlt hl] at h
  rw [Lists.length_of_mapM h, List.length_range]

/-- The source's own refusals. -/
theorem split_refused (hlt : n < 2 ^ 32) (h : n = 0 ∨ d.length < n) :
    split (.ofNat n) d = some [] := by
  have hn : (UInt32.ofNat n).toNat = n := UInt32.toNat_ofNat_of_lt' hlt
  rcases h with rfl | h
  · rfl
  · rw [split, hn, if_pos h]
    split <;> rfl

theorem length_pieces (h1 : 1 ≤ n) (h : Nat) (d : Bytes) : (pieces n h d).length = n := by
  simp [pieces]
  omega

/-- The pieces are the file. -/
theorem flatMap_pieces (n h : Nat) (d : Bytes) :
    (pieces n h d).flatMap HorcruxData.mContent = d := by
  rw [pieces, List.flatMap_append, List.flatMap_map, flatMap_range_pieces]
  simp

theorem aggregate_pieces (n h : Nat) (d : Bytes) : aggregate (pieces n h d) = d.length := by
  rw [← congrArg List.length (flatMap_pieces n h d), List.length_flatMap, aggregate]

end
end Horcrux.Client.BasicFileSplitter
