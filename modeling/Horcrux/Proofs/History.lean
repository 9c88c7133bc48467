import Horcrux.History
import Horcrux.Proofs.Archive
import Horcrux.Proofs.Rejoin

namespace Horcrux
open Save Utils WriteOnce

section Files
variable {fs fs' : FileSystem}

theorem asStore_saveFile (fs : FileSystem) (b : Bytes) (p : Path) :
    asStore (saveFile fs b p).2 = ((asStore fs).put (b, p)).2 := by
  rw [saveCall_refines]
  rfl

theorem extends_saveFile (fs : FileSystem) (b : Bytes) (p : Path) :
    (asStore fs).Extends (asStore (saveFile fs b p).2) := by
  rw [asStore_saveFile]
  exact Store.extends_put _ _

/-- The save loop keeps what is there, as far as it gets. -/
theorem extends_saveLoop {slots : List (Option HorcruxData)}
    (h : saveLoop u slots k fs = some fs') : (asStore fs).Extends (asStore fs') := by
  induction slots generalizing k fs with
  | nil =>
    cases h
    exact .refl _
  | cons slot slots ih =>
    cases slot with
    | none => cases h
    | some hcx => exact (extends_saveFile fs _ _).trans (ih h)

/-- What can be put together can be put together later. -/
theorem joinFiles_extends (he : (asStore fs).Extends (asStore fs'))
    (h : joinFiles fs uuid n = some b) : joinFiles fs' uuid n = some b := by
  refine Lists.foldlM_mono ?_ h
  intro acc i y hy
  obtain ⟨c, hc, hy⟩ := Option.bind_eq_some_iff.mp hy
  exact Option.bind_eq_some_iff.mpr ⟨c, he.get hc, hy⟩

/-- join.cpp's loop puts together the pieces that it finds. -/
theorem joinFiles_pieces {pieces : List Bytes} (hn : pieces.length < 2 ^ 31)
    (h : ∀ k b, pieces[k]? = some b → loadFile fs (horcruxPath uuid (.ofNat k)) = some b) :
    joinFiles fs uuid (.ofNat pieces.length) = some pieces.flatten := by
  have hlen : (UInt32.ofNat pieces.length).toNat = pieces.length :=
    UInt32.toNat_ofNat_of_lt' (Nat.lt_trans hn (by decide))
  have hload : ∀ k ∈ List.range pieces.length,
      loadFile fs (kOutPath ++ [getFileName uuid (Int32.ofNat k)]) = some (pieces[k]?.getD []) := by
    intro k hk
    have hlt := List.mem_range.mp hk
    rw [getFileName_eq uuid (Nat.lt_trans hlt hn), ← horcruxPath,
      h k _ (List.getElem?_eq_getElem hlt), List.getElem?_eq_getElem hlt]
    rfl
  have hmap : ((List.range pieces.length).map fun k => pieces[k]?.getD []) = pieces := by
    apply List.ext_getElem
    · simp
    · intro k hk hk'
      simp [hk']
  rw [joinFiles, hlen]
  apply (Lists.foldlM_append hload []).trans
  rw [List.nil_append, List.flatMap_def, hmap]

theorem saveLoop_other {slots : List (Option HorcruxData)} (hq : ∀ k, q ≠ horcruxPath u k)
    (h : saveLoop u slots k fs = some fs') : fs' q = fs q := by
  induction slots generalizing k fs with
  | nil =>
    cases h
    rfl
  | cons slot slots ih =>
    cases slot with
    | none => cases h
    | some hcx =>
      rw [ih h]
      exact saveFile_other fs _ (hq k)

theorem loadFile_congr (h : fs' q = fs q) : loadFile fs' q = loadFile fs q := by
  rw [loadFile, loadFile, h]

theorem reconstructedPath_ne (u : UInt64) (k : UInt32) : reconstructedPath ≠ horcruxPath u k := by
  intro h
  simp only [reconstructedPath, horcruxPath, List.append_cancel_left_eq, List.cons.injEq,
    and_true] at h
  exact horcruxName_ne_reconstructed u k h.symm

end Files

namespace AsioServer
variable {ι : Type} {mConfig : Config} {incoming : ι → Bytes} {fs : FileSystem}
  {srv : AsioServer ι} {filed : List (ι × Parcel)}

theorem Serial.extends (h : Serial mConfig incoming fs filed srv) :
    (asStore fs).Extends (asStore srv.fs) := by
  rw [h.files]
  exact Store.extends_run _ _

/-- The server writes nothing but horcruxes. -/
theorem Serial.loadFile_other (h : Serial mConfig incoming fs filed srv)
    (hq : ∀ u k, q ≠ horcruxPath u k) : loadFile srv.fs q = loadFile fs q := by
  cases hload : loadFile srv.fs q with
  | some content =>
    rcases h.content hload with hbefore | ⟨_, _, p, k, _, _, _, hpath⟩
    · exact hbefore.symm
    · exact absurd hpath (hq _ _)
  | none =>
    cases hbefore : loadFile fs q with
    | none => rfl
    | some content =>
      have hafter : loadFile srv.fs q = some content := h.extends.get hbefore
      rw [hload] at hafter
      cases hafter

end AsioServer

namespace Episode
variable {ι : Type} [DecidableEq ι] {e : Episode ι} {es : List (Episode ι)} {fs fs' : FileSystem}

/-- No episode loses a file, not even one that ends in the middle of a save. -/
theorem Run.extends (h : Run e fs fs') : (asStore fs).Extends (asStore fs') := by
  cases h with
  | serve hrun =>
    obtain ⟨filed, hserial⟩ := AsioServer.exists_serial hrun
    exact hserial.extends
  | killed hrun _ _ hloop _ =>
    obtain ⟨filed, hserial⟩ := AsioServer.exists_serial hrun
    exact (hserial.extends.trans (extends_saveLoop hloop)).trans (extends_saveFile _ _ _)
  | join =>
    unfold joinMain
    split
    · exact .refl _
    · exact extends_saveFile _ _ _

theorem history_extends (h : Agents.Schedule Run es fs fs') :
    (asStore fs).Extends (asStore fs') :=
  h.keeps (P := fun g => (asStore fs).Extends (asStore g))
    (fun _ _ _ _ he hr => he.trans hr.extends) (.refl _)

/-- Only the join tool writes its result. -/
theorem Run.reconstructed (h : Run e fs fs') :
    loadFile fs' reconstructedPath = loadFile fs reconstructedPath ∨
      ∃ uuid n, e = .join uuid n ∧ fs' = joinMain fs uuid n := by
  cases h with
  | serve hrun =>
    obtain ⟨filed, hserial⟩ := AsioServer.exists_serial hrun
    exact .inl (hserial.loadFile_other reconstructedPath_ne)
  | killed hrun _ _ hloop _ =>
    obtain ⟨filed, hserial⟩ := AsioServer.exists_serial hrun
    refine .inl ?_
    rw [loadFile_congr (saveFile_other _ _ (reconstructedPath_ne _ _)),
      loadFile_congr (saveLoop_other (reconstructedPath_ne _) hloop)]
    exact hserial.loadFile_other reconstructedPath_ne
  | join => exact .inr ⟨_, _, rfl, rfl⟩

/-- The join tool writes its result where there is none yet. -/
theorem loadFile_joinMain (hopen : opensForWriting fs reconstructedPath = true)
    (hnone : loadFile fs reconstructedPath = none) :
    loadFile (joinMain fs uuid n) reconstructedPath = joinFiles fs uuid n := by
  unfold joinMain
  split
  · rename_i hjoin
    rw [hjoin, hnone]
  · rename_i b hjoin
    have hfile : isRegularFile fs reconstructedPath = false := by simp [isRegularFile_eq, hnone]
    rw [loadFile_saveFile hfile hopen, Function.update_self, hjoin]

/-- Some join of the history found no result yet, and put `b` together. -/
def Joined (es : List (Episode ι)) (fs : FileSystem) (b : Bytes) (fs' : FileSystem) : Prop :=
  ∃ before uuid n after g, es = before ++ .join uuid n :: after ∧
    Agents.Schedule Run before fs g ∧ loadFile g reconstructedPath = none ∧
    joinFiles g uuid n = some b ∧ Agents.Schedule Run after (joinMain g uuid n) fs'

theorem Joined.cons (hr : Run e fs g) (h : Joined es g b fs') : Joined (e :: es) fs b fs' := by
  obtain ⟨before, uuid, n, after, f, rfl, hbefore, hnone, hjoin, hafter⟩ := h
  exact ⟨e :: before, uuid, n, after, f, rfl, .cons hr hbefore, hnone, hjoin, hafter⟩

/-- The first join that succeeds decides what the result is, for good. Whatever servers and
joins come before and after it, later joins of other files leave no trace of theirs. -/
theorem first_join_wins (h : Agents.Schedule Run es fs fs')
    (hopen : opensForWriting fs reconstructedPath = true)
    (hnone : loadFile fs reconstructedPath = none) (b : Bytes) :
    loadFile fs' reconstructedPath = some b ↔ Joined es fs b fs' := by
  constructor
  · intro hload
    induction h with
    | nil =>
      rw [hnone] at hload
      cases hload
    | @cons e fs g es fs' hr hrest ih =>
      have hopen' : opensForWriting g reconstructedPath = true := by
        have := congrFun hr.extends.opens reconstructedPath
        exact this.trans hopen
      cases hg : loadFile g reconstructedPath with
      | none => exact (ih hopen' hg hload).cons hr
      | some c =>
        -- the result is there after this episode, so that it is its join that wrote it
        have hkept : loadFile fs' reconstructedPath = some c := (history_extends hrest).get hg
        rw [hload] at hkept
        cases hkept
        rcases hr.reconstructed with hsame | ⟨uuid, n, rfl, rfl⟩
        · rw [hsame, hnone] at hg
          cases hg
        · rw [loadFile_joinMain hopen hnone] at hg
          exact ⟨[], uuid, n, es, fs, rfl, .nil, hnone, hg, hrest⟩
  · intro hj
    obtain ⟨before, uuid, n, after, g, rfl, hbefore, hg, hjoin, hafter⟩ := hj
    have hopen' : opensForWriting g reconstructedPath = true :=
      (congrFun (history_extends hbefore).opens reconstructedPath).trans hopen
    apply (history_extends hafter).get
    exact (loadFile_joinMain hopen' hg).trans hjoin

/-- The second of two joins is in vain. -/
theorem first_join_wins_twice : ∃ fs' : FileSystem,
    Agents.Schedule Run [(.join 7 1 : Episode Unit), .join 8 1]
      (outDirectory [(horcruxPath 7 0, [104, 105]), (horcruxPath 8 0, [1])]) fs' ∧
    loadFile fs' reconstructedPath = some [104, 105] := by
  have hrun : Agents.Schedule Run [(.join 7 1 : Episode Unit), .join 8 1]
      (outDirectory [(horcruxPath 7 0, [104, 105]), (horcruxPath 8 0, [1])]) _ :=
    .cons .join (.cons .join .nil)
  exact ⟨_, hrun, (first_join_wins hrun (by decide) (by decide) _).mpr
    ⟨[], 7, 1, [.join 8 1], _, rfl, .nil, by decide, by decide, .single .join⟩⟩

end Episode

section Recovery
variable {ι : Type} [DecidableEq ι] {mConfig : Config} {incoming : ι → Bytes}
  {os : AsioSession → List Asio.SysResult → Prop} {acts : List (AsioServer.Act ι)}
  {fs fs' : FileSystem} {srv : AsioServer ι} {es : List (Episode ι)} {p : Parcel}

/-- The pieces of a client that has saved are there, where no other client saved its id. -/
theorem AsioServer.Serial.pieces (h : Serial mConfig incoming fs filed srv)
    (hi : srv.HasSaved i) (hp : Carries mConfig (incoming i) p)
    (hout : fs kOutPath = some .directory)
    (hfree : ∀ k < p.pieces.length, fs (horcruxPath p.uuid (.ofNat k)) = none)
    (hother : ∀ j q, j ≠ i → srv.HasSaved j → Carries mConfig (incoming j) q → q.uuid ≠ p.uuid)
    (hk : p.pieces[k]? = some b) : loadFile srv.fs (horcruxPath p.uuid (.ofNat k)) = some b := by
  have hlt := (List.getElem?_eq_some_iff.mp hk).1
  have hopen : opensForWriting fs (horcruxPath p.uuid (.ofNat k)) = true := by
    rw [opensForWriting, hfree k hlt]
    simp [horcruxPath, hout]
  obtain ⟨c, hc⟩ := Option.isSome_iff_exists.mp
    ((h.isSome_iff _).mpr (.inr ⟨hopen, i, p, k, hi, hp, hlt, rfl⟩))
  rcases h.content hc with hbefore | ⟨_, j, q, m, hj, hq, hm, hpath⟩
  · simp [loadFile, hfree k hlt] at hbefore
  · obtain ⟨hu, hkm⟩ := horcruxPath_inj hpath
    by_cases hji : j = i
    · subst hji
      obtain rfl := hq.unique hp
      have hlen := hq.length_lt
      have hmlt := (List.getElem?_eq_some_iff.mp hm).1
      obtain rfl := ofNat_inj_of_lt (by omega) (by omega) hkm
      rw [hc, ← hm, hk]
    · exact absurd hu.symm (hother j q hji hj hq)

/-- What a client has uploaded under an id of its own can be put together for good: by any
later join, whatever servers and joins ran in between and wherever they were stopped. -/
theorem upload_recoverable
    (h : Agents.Schedule (AsioServer.Step mConfig incoming os) acts (.listening fs) srv)
    (hi : srv.HasSaved i) (hp : Carries mConfig (incoming i) p)
    (hout : fs kOutPath = some .directory)
    (hfree : ∀ k < p.pieces.length, fs (horcruxPath p.uuid (.ofNat k)) = none)
    (hother : ∀ j q, j ≠ i → srv.HasSaved j → Carries mConfig (incoming j) q → q.uuid ≠ p.uuid)
    (hn : p.pieces.length < 2 ^ 31) (hist : Agents.Schedule Episode.Run es srv.fs fs') :
    joinFiles fs' p.uuid (.ofNat p.pieces.length) = some p.pieces.flatten := by
  obtain ⟨filed, hserial⟩ := AsioServer.exists_serial h
  apply joinFiles_extends (Episode.history_extends hist)
  exact joinFiles_pieces hn fun k b hk => hserial.pieces hi hp hout hfree hother hk

theorem upload_recoverable_sample : ∃ srv : AsioServer Unit,
    srv.HasSaved () ∧ joinFiles (joinMain srv.fs 7 1) 7 1 = some [104, 105] := by
  obtain ⟨srv, x, hx, hlast, _, _, h⟩ := AsioServer.sample_run
  have hsaved : srv.HasSaved () := ⟨x, hx, List.mem_of_getLast? hlast⟩
  have hist : Agents.Schedule Episode.Run [(.join 7 1 : Episode Unit)] srv.fs
      (joinMain srv.fs 7 1) := .single .join
  have hother : ∀ j q, j ≠ () → srv.HasSaved j → Carries {} sampleStream q → q.uuid ≠ 7 :=
    fun j _ hj => absurd rfl hj
  have hfree : ∀ k < 1, outDirectory [] (horcruxPath 7 (.ofNat k)) = none :=
    fun k _ => by simp [outDirectory, horcruxPath, kOutPath]
  refine ⟨srv, hsaved, ?_⟩
  simpa using
    upload_recoverable h hsaved AsioServer.sample_carries rfl hfree hother (by decide) hist

end Recovery
end Horcrux
