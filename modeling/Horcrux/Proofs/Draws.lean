import Horcrux.Utils
import Mathlib.Data.Set.Card

namespace Horcrux.Utils

/-- One value of 32 bits leads to no more than 2^32 results. -/
theorem ncard_range_le (f : UInt32 → UInt64) : (Set.range f).ncard ≤ 2 ^ 32 := by
  have hrange : Set.range f = (fun n : Fin (2 ^ 32) => f (UInt32.ofFin n)) '' Set.univ := by
    ext u
    constructor
    · intro hu
      obtain ⟨rd, rfl⟩ := hu
      exact ⟨rd.toFin, Set.mem_univ _, rfl⟩
    · intro hu
      obtain ⟨n, _, rfl⟩ := hu
      exact ⟨UInt32.ofFin n, rfl⟩
  calc (Set.range f).ncard ≤ (Set.univ : Set (Fin (2 ^ 32))).ncard := by
        rw [hrange]
        exact Set.ncard_image_le
    _ = 2 ^ 32 := by rw [Set.ncard_univ, Nat.card_fin]

theorem card_uint64 : Nat.card UInt64 = 2 ^ 64 := by
  have he : UInt64 ≃ Fin (2 ^ 64) := ⟨UInt64.toFin, UInt64.ofFin, fun _ => rfl, fun _ => rfl⟩
  rw [Nat.card_congr he, Nat.card_fin]

/-- So some 64-bit value is missed. -/
theorem exists_not_drawn (f : UInt32 → UInt64) : ¬ ∀ u, ∃ rd, f rd = u := by
  intro h
  have hle := ncard_range_le f
  rw [Set.range_eq_univ.mpr h, Set.ncard_univ, card_uint64] at hle
  exact absurd hle (by decide)

/-- Whatever the distribution makes of the engine, at most 2^32 of the 2^64 file ids are
ever drawn: the engine is seeded with a single 32-bit value. -/
theorem ids_never_exhausted (distribution : MersenneTwister.Engine → UInt64) :
    (Set.range (generateRandomUint64 distribution)).ncard ≤ 2 ^ 32 ∧
      ¬ ∀ u : UInt64, ∃ rd : UInt32, generateRandomUint64 distribution rd = u :=
  ⟨ncard_range_le _, exists_not_drawn _⟩

theorem id_out_of_reach :
    ¬ ∀ u : UInt64, ∃ rd : UInt32, generateRandomUint64 uniformIntDistribution rd = u :=
  exists_not_drawn _

end Horcrux.Utils
