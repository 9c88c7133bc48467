import Horcrux.Client
import Horcrux.Lib.Decimal
import Mathlib.Data.List.Basic

namespace Horcrux
open Utils

theorem horcruxName_inj (h : horcruxName u i = horcruxName v j) : u = v ∧ i = j := by
  obtain ⟨hu, hi⟩ := Decimal.repr_append_inj ".hcx." rfl (by decide) h
  exact ⟨UInt64.toNat_inj.mp hu, UInt32.toNat_inj.mp (Decimal.repr_injective hi)⟩

/-- join.cpp's result does not lie in the way of any horcrux: its name has no x. -/
theorem horcruxName_ne_reconstructed (u : UInt64) (i : UInt32) :
    horcruxName u i ≠ "reconstructed.png" := by
  intro h
  have hx : 'x' ∈ (horcruxName u i).toList := by simp [horcruxName]
  rw [h] at hx
  revert hx
  decide

/-- join.cpp's file names are those of the server. -/
theorem getFileName_eq (uuid : UInt64) (hi : i < 2 ^ 31) :
    getFileName uuid (Int32.ofNat i) = horcruxName uuid (.ofNat i) := by
  have hint : (Int32.ofNat i).toInt = (i : Int) := Int32.toInt_ofNat_of_lt hi
  have hnat : (UInt32.ofNat i).toNat = i := UInt32.toNat_ofNat_of_lt' (Nat.lt_trans hi (by decide))
  rw [getFileName, horcruxName, hint, hnat]
  rfl

/-- The names of horcrux files are unambiguous, and the reader builds those of the writer. -/
theorem file_names_unambiguous :
    (∀ u v i j, horcruxName u i = horcruxName v j → u = v ∧ i = j) ∧
    (∀ u i, horcruxName u i ≠ "reconstructed.png") ∧
    ∀ (u : UInt64) (i : Nat), i < 2 ^ 31 →
      getFileName u (Int32.ofNat i) = horcruxName u (UInt32.ofNat i) :=
  ⟨fun _ _ _ _ => horcruxName_inj, horcruxName_ne_reconstructed, fun u _ => getFileName_eq u⟩

theorem file_names_sample :
    getFileName 17240256471984258206 3 = horcruxName 17240256471984258206 3 :=
  file_names_unambiguous.2.2 17240256471984258206 3 (by decide)

theorem horcruxPath_inj (h : horcruxPath u i = horcruxPath v j) : u = v ∧ i = j := by
  simp only [horcruxPath, List.append_cancel_left_eq, List.cons.injEq, and_true] at h
  exact horcruxName_inj h

theorem ofNat_inj_of_lt {m n : Nat} (hm : m < 2 ^ 32) (hn : n < 2 ^ 32)
    (h : UInt32.ofNat m = UInt32.ofNat n) : m = n := by
  have ht := congrArg UInt32.toNat h
  rwa [UInt32.toNat_ofNat_of_lt' hm, UInt32.toNat_ofNat_of_lt' hn] at ht

/-- A horcrux is never stored at the output directory itself. -/
theorem horcruxPath_ne_out (u : UInt64) (i : UInt32) : kOutPath ≠ horcruxPath u i := by
  simp [kOutPath, horcruxPath]

/-- A save takes effect only at a free path below an existing directory. -/
theorem saveFile_apply (fs : FileSystem) (b : Bytes) (p q : Path) :
    (saveFile fs b p).2 q =
      if q = p ∧ fs p = none ∧ fs p.dropLast = some .directory then some (.file b) else fs q := by
  unfold saveFile isRegularFile opensForWriting
  cases hp : fs p with
  | none =>
    by_cases hd : fs p.dropLast = some .directory
    · by_cases hq : q = p <;> simp [hd, hq]
    · simp [hd]
  | some node => cases node <;> simp

theorem saveFile_other (fs : FileSystem) (b : Bytes) (hq : q ≠ p) :
    (saveFile fs b p).2 q = fs q := by
  simp [saveFile_apply, hq]

theorem saveFile_horcrux (fs : FileSystem) (b : Bytes) (u : UInt64) (i : UInt32) :
    (saveFile fs b (horcruxPath u i)).2 (horcruxPath u i) =
      if fs (horcruxPath u i) = none ∧ fs kOutPath = some .directory then some (.file b)
      else fs (horcruxPath u i) := by
  rw [saveFile_apply]
  exact if_congr (by simp [horcruxPath]) rfl rfl

/-- The save loop fails only on an empty slot. -/
theorem saveLoop_isSome (u : UInt64) (slots : List (Option HorcruxData)) (k : UInt32)
    (fs : FileSystem) : (saveLoop u slots k fs).isSome = slots.all Option.isSome := by
  induction slots generalizing k fs with
  | nil => rfl
  | cons slot slots ih =>
    cases slot with
    | none => rfl
    | some hcx => simpa [saveLoop] using ih (k + 1) _

theorem exists_saveHorcruxes {c : TcpConnection}
    (h : c.mCurrentRequestHorcruxes.all Option.isSome = true) (fs : FileSystem) :
    ∃ fs', c.saveHorcruxes fs = some fs' := by
  rw [← Option.isSome_iff_exists, TcpConnection.saveHorcruxes, saveLoop_isSome]
  exact h

/-- What the save loop leaves at the path of each slot, and that it touches no other. -/
theorem saveLoop_spec {slots : List (Option HorcruxData)}
    (h : saveLoop u slots (.ofNat k) fs = some fs') (hk : k + slots.length ≤ 2 ^ 32) :
    (∀ j hcx, slots[j]? = some (some hcx) →
      fs' (horcruxPath u (.ofNat (k + j))) =
        if fs (horcruxPath u (.ofNat (k + j))) = none ∧ fs kOutPath = some .directory then
          some (.file hcx.mContent) else fs (horcruxPath u (.ofNat (k + j)))) ∧
    (∀ q, (∀ j < slots.length, q ≠ horcruxPath u (.ofNat (k + j))) → fs' q = fs q) := by
  induction slots generalizing k fs with
  | nil =>
    simp only [saveLoop, Option.some.injEq] at h
    subst h
    exact ⟨by simp, fun q _ => rfl⟩
  | cons slot slots ih =>
    cases slot with
    | none => simp [saveLoop] at h
    | some hcx =>
      have hnext : UInt32.ofNat k + 1 = UInt32.ofNat (k + 1) := by
        simp [UInt32.ofNat_add]
      simp only [saveLoop, hnext] at h
      simp only [List.length_cons] at hk
      obtain ⟨hat, hother⟩ := ih h (by omega)
      have hout := saveFile_other fs hcx.mContent (horcruxPath_ne_out u (.ofNat k))
      refine ⟨?_, ?_⟩
      · intro j c hj
        cases j with
        | zero =>
          simp only [List.getElem?_cons_zero, Option.some.injEq] at hj
          subst c
          rw [Nat.add_zero, hother, saveFile_horcrux]
          intro j hj he
          have := ofNat_inj_of_lt (by omega) (by omega) (horcruxPath_inj he).2
          omega
        | succ j =>
          rw [List.getElem?_cons_succ] at hj
          have hlt : j < slots.length := (List.getElem?_eq_some_iff.mp hj).1
          have hne : horcruxPath u (.ofNat (k + (j + 1))) ≠ horcruxPath u (.ofNat k) := by
            intro he
            have := ofNat_inj_of_lt (by omega) (by omega) (horcruxPath_inj he).2
            omega
          have hj' := hat j c hj
          rwa [hout, show k + 1 + j = k + (j + 1) by omega, saveFile_other _ _ hne] at hj'
      · intro q hq
        rw [hother q ?_, saveFile_other _ _ (by simpa using hq 0 (by simp))]
        intro j hj
        simpa [show k + 1 + j = k + (j + 1) by omega] using hq (j + 1) (by simpa using hj)

end Horcrux
