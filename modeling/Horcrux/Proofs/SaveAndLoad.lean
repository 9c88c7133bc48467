import Horcrux.Proofs.Files
import Horcrux.Lib.WriteOnce

namespace Horcrux.Utils
open WriteOnce

/-- One call of saveFile, with its binary and its path. -/
def saveCall (fs : FileSystem) (call : Bytes × Path) : Bool × FileSystem :=
  saveFile fs call.1 call.2

/-- What a filesystem is to loadFile and saveFile. -/
def asStore (fs : FileSystem) : Store Path Bytes := ⟨loadFile fs, opensForWriting fs⟩

section
variable {fs : FileSystem}

theorem isRegularFile_eq (fs : FileSystem) (p : Path) :
    isRegularFile fs p = (loadFile fs p).isSome := by
  unfold isRegularFile loadFile
  split <;> rfl

/-- A save succeeds exactly when no file is there and the path can be opened. -/
theorem saveFile_result (fs : FileSystem) (b : Bytes) (p : Path) :
    (saveFile fs b p).1 = (!isRegularFile fs p && opensForWriting fs p) := by
  unfold saveFile
  cases isRegularFile fs p <;> cases opensForWriting fs p <;> rfl

/-- A call that returns false leaves everything as it is. -/
theorem saveFile_refused (h : (saveFile fs b p).1 = false) : (saveFile fs b p).2 = fs := by
  unfold saveFile at h ⊢
  split
  · rfl
  · split
    · rename_i hfile hopen
      rw [if_neg hfile, if_pos hopen] at h
      cases h
    · rfl

/-- No save makes a directory, or replaces one. -/
theorem saveFile_directory (fs : FileSystem) (b : Bytes) (p q : Path) :
    (saveFile fs b p).2 q = some .directory ↔ fs q = some .directory := by
  rw [saveFile_apply]
  split
  · rename_i hq
    rw [hq.1, hq.2.1]
    simp
  · rfl

theorem opensForWriting_saveFile (fs : FileSystem) (b : Bytes) (p : Path) :
    opensForWriting (saveFile fs b p).2 = opensForWriting fs := by
  funext q
  simp only [opensForWriting, ne_eq, saveFile_directory]

/-- A save that succeeds puts its binary at its path, and no other file is touched. -/
theorem loadFile_saveFile (hfile : isRegularFile fs p = false)
    (hopen : opensForWriting fs p = true) :
    loadFile (saveFile fs b p).2 = Function.update (loadFile fs) p (some b) := by
  funext q
  rw [saveFile, if_neg (by simp [hfile]), if_pos hopen]
  by_cases hq : q = p
  · subst hq
    simp [loadFile]
  · simp [loadFile, hq]

/-- The filesystem is a store that takes one file for each path it can open. -/
theorem saveCall_refines (fs : FileSystem) (call : Bytes × Path) :
    (asStore fs).put call = ((saveCall fs call).1, asStore (saveCall fs call).2) := by
  obtain ⟨b, p⟩ := call
  have hopens := opensForWriting_saveFile fs b p
  have hresult := saveFile_result fs b p
  have hfile : (loadFile fs p).isNone = !isRegularFile fs p := by
    rw [isRegularFile_eq, Option.not_isSome]
  by_cases hput : (!isRegularFile fs p && opensForWriting fs p) = true
  · have hcond := hput
    rw [Bool.and_eq_true, Bool.not_eq_true'] at hcond
    simp only [Store.put, asStore, saveCall, hfile, hresult, hput, ↓reduceIte, hopens,
      loadFile_saveFile hcond.1 hcond.2]
  · have hfalse := Bool.eq_false_iff.mpr hput
    have hsame := saveFile_refused (hresult.trans hfalse)
    simp only [Store.put, asStore, saveCall, hfile, hresult, hfalse, Bool.false_eq_true,
      ↓reduceIte, hsame]

/-- Afterwards a path loads what it did at the start, or else the binary of the first
save of it that succeeded. -/
theorem loadFile_run (fs : FileSystem) (calls : List (Bytes × Path)) (p : Path) :
    loadFile (run saveCall fs calls).2 p =
      (loadFile fs p).or (firstAccepted p calls (run saveCall fs calls).1) := by
  have h := get_run (asStore fs) calls p
  rw [run_refines saveCall_refines] at h
  exact h

/-- Over any sequence of saves the first successful one wins, load returns it, and a save
that fails changes nothing. -/
theorem first_save_wins (fs : FileSystem) (calls : List (Bytes × Path)) :
    (∀ p, isRegularFile fs p = false → loadFile (run saveCall fs calls).2 p =
      firstAccepted p calls (run saveCall fs calls).1) ∧
    (∀ p, isRegularFile fs p = true → loadFile (run saveCall fs calls).2 p = loadFile fs p) ∧
    ∀ k : Nat, (run saveCall fs calls).1[k]? = some false →
      (run saveCall fs (calls.take (k + 1))).2 = (run saveCall fs (calls.take k)).2 := by
  refine ⟨?_, ?_, ?_⟩
  · intro p hp
    rw [isRegularFile_eq, Option.isSome_eq_false_iff, Option.isNone_iff_eq_none] at hp
    rw [loadFile_run, hp, Option.none_or]
  · intro p hp
    rw [isRegularFile_eq] at hp
    rw [loadFile_run, Option.or_of_isSome hp]
  · intro k hk
    rw [getElem?_run, Option.map_eq_some_iff] at hk
    obtain ⟨call, hcall, hfalse⟩ := hk
    rw [run_take_succ fs hcall]
    exact saveFile_refused hfalse

theorem first_save_wins_sample :
    loadFile (run saveCall (fun p => if p = [] then some .directory else none)
      [([1], ["file"]), ([2], ["file"])]).2 ["file"] = some [1] :=
  ((first_save_wins _ [([1], ["file"]), ([2], ["file"])]).1 ["file"] (by decide)).trans (by decide)

end
end Horcrux.Utils
