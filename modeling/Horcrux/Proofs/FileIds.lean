import Horcrux.Proofs.Storing

namespace Horcrux
open Save Utils

/-- The paths `out/<uuid>.hcx.*`. -/
def hcxPath (uuid : UInt64) (suffix : String) : Path :=
  kOutPath ++ [toString uuid.toNat ++ ".hcx." ++ suffix]

/-- The files of `uuid` are exactly the pieces of `cs`. -/
structure Pieces (fs : FileSystem) (uuid : UInt64) (cs : List HorcruxData) : Prop where
  each : ∀ (k : Nat) hcx, cs[k]? = some hcx →
    fs (horcruxPath uuid (.ofNat k)) = some (.file hcx.mContent)
  only : ∀ suffix, fs (hcxPath uuid suffix) ≠ none →
    ∃ k < cs.length, hcxPath uuid suffix = horcruxPath uuid (.ofNat k)

/-- Either nothing of the upload can be stored any more, or nothing else is in its way. -/
def Undivided (fs : FileSystem) (uuid : UInt64) (cs : List HorcruxData) : Prop :=
  (∀ k < cs.length, fs (horcruxPath uuid (.ofNat k)) ≠ none) ∨
    ∀ (k : Nat) hcx, cs[k]? = some hcx → fs (horcruxPath uuid (.ofNat k)) = none ∨
      fs (horcruxPath uuid (.ofNat k)) = some (.file hcx.mContent)

theorem horcruxPath_eq_hcxPath (uuid : UInt64) (k : UInt32) :
    horcruxPath uuid k = hcxPath uuid (toString k.toNat) := rfl

theorem hcxPath_ne_horcruxPath {u v : UInt64} (h : v ≠ u) (suffix : String) (k : UInt32) :
    hcxPath v suffix ≠ horcruxPath u k := by
  intro he
  simp only [hcxPath, horcruxPath, horcruxName, List.append_cancel_left_eq, List.cons.injEq,
    and_true] at he
  obtain ⟨hu, _⟩ := Decimal.repr_append_inj ".hcx." rfl (by decide) he
  exact h (UInt64.toNat_inj.mp hu)

section Saves
variable {fs fs' : FileSystem} {uuid v : UInt64} {cs ds : List HorcruxData}

theorem Saves.other_uuid (h : Saves fs fs' uuid cs) (hv : v ≠ uuid) (suffix : String) :
    fs' (hcxPath v suffix) = fs (hcxPath v suffix) :=
  h.other _ fun _ _ => hcxPath_ne_horcruxPath hv _ _

theorem Pieces.congr (h : Pieces fs v ds)
    (he : ∀ suffix, fs' (hcxPath v suffix) = fs (hcxPath v suffix)) : Pieces fs' v ds where
  each k hcx hk := by
    rw [horcruxPath_eq_hcxPath, he, ← horcruxPath_eq_hcxPath]
    exact h.each k hcx hk
  only suffix hs := h.only suffix (by rwa [← he])

theorem Saves.all_taken (h : Saves fs fs' uuid cs)
    (ht : ∀ k < cs.length, fs (horcruxPath uuid (.ofNat k)) ≠ none) : fs' = fs := by
  funext p
  by_cases hk : ∃ k < cs.length, p = horcruxPath uuid (.ofNat k)
  · obtain ⟨k, hlt, rfl⟩ := hk
    exact h.taken (ht k hlt)
  · exact h.other p fun k hlt he => hk ⟨k, hlt, he⟩

/-- Where nothing else is in its way, the upload ends up as the files of its id, if the
files before were at most as many. -/
theorem Saves.pieces (h : Saves fs fs' uuid cs) (hout : fs kOutPath = some .directory)
    (hfree : ∀ (k : Nat) hcx, cs[k]? = some hcx → fs (horcruxPath uuid (.ofNat k)) = none ∨
      fs (horcruxPath uuid (.ofNat k)) = some (.file hcx.mContent))
    (honly : ∀ suffix, fs (hcxPath uuid suffix) ≠ none →
      ∃ k < cs.length, hcxPath uuid suffix = horcruxPath uuid (.ofNat k)) :
    Pieces fs' uuid cs where
  each k hcx hk := by
    rcases hfree k hcx hk with hn | he
    · exact h.free hout hk hn
    · rw [h.taken (by simp [he]), he]
  only suffix hs := by
    by_contra hn
    have hsame := h.other (hcxPath uuid suffix) fun k hlt he => hn ⟨k, hlt, he⟩
    exact hn (honly suffix (by rwa [← hsame]))

theorem Pieces.length_lt (h : Pieces fs uuid ds) {k : Nat}
    (hn : fs (horcruxPath uuid (.ofNat k)) = none) : ds.length ≤ k := by
  by_contra hlt
  have he := h.each k _ (List.getElem?_eq_getElem (by omega))
  rw [hn] at he
  cases he

/-- A save leaves its id with one upload exactly when it does not divide its pieces.
`Done` are the uploads completed before. -/
theorem Saves.one_upload_iff {Done : List HorcruxData → Prop} (h : Saves fs fs' uuid cs)
    (hout : fs kOutPath = some .directory)
    (hbefore : (∀ suffix, fs (hcxPath uuid suffix) = none) ∨ ∃ ds, Done ds ∧ Pieces fs uuid ds)
    (hkept : ∀ ds, Done ds → ∀ k < ds.length, fs (horcruxPath uuid (.ofNat k)) ≠ none) :
    ((∀ suffix, fs' (hcxPath uuid suffix) = none) ∨
      ∃ ds, (Done ds ∨ ds = cs) ∧ Pieces fs' uuid ds) ↔ Undivided fs uuid cs := by
  constructor
  · intro hafter
    by_contra hn
    simp only [Undivided, not_or, not_forall, not_not] at hn
    obtain ⟨⟨k, hk, hfree⟩, j, hcx, hj, htaken, hdiff⟩ := hn
    rcases hafter with hnone | ⟨ds, hd | rfl, hp⟩
    · have he := hnone (toString (UInt32.ofNat j).toNat)
      rw [← horcruxPath_eq_hcxPath, h.taken htaken] at he
      exact htaken he
    · have hsaved := h.free hout (List.getElem?_eq_getElem hk) hfree
      rw [horcruxPath_eq_hcxPath] at hsaved
      obtain ⟨m, hm, he⟩ := hp.only _ (by rw [hsaved]; simp)
      rw [← horcruxPath_eq_hcxPath] at he
      exact hkept ds hd m hm (by rw [← he]; exact hfree)
    · have he := hp.each j hcx hj
      rw [h.taken htaken] at he
      exact hdiff he
  · intro hu
    by_cases hall : ∀ k < cs.length, fs (horcruxPath uuid (.ofNat k)) ≠ none
    · rw [h.all_taken hall]
      exact hbefore.imp_right fun ⟨ds, hd, hp⟩ => ⟨ds, .inl hd, hp⟩
    · have hfree := hu.resolve_left hall
      simp only [not_forall, not_not] at hall
      obtain ⟨k, hk, hn⟩ := hall
      refine .inr ⟨cs, .inr rfl, h.pieces hout hfree ?_⟩
      intro suffix hs
      rcases hbefore with hnone | ⟨ds, hd, hp⟩
      · exact False.elim (hs (hnone suffix))
      · obtain ⟨m, hm, he⟩ := hp.only suffix hs
        have hlen := hp.length_lt hn
        exact ⟨m, by omega, he⟩

end Saves

/-- A handler that does not save leaves a connection that has not saved. -/
theorem Situation.not_saved_step {s s' : Session} (h : Situation mConfig stream s)
    (hs : s.complete io fs = .next (s', fs'))
    (hp : ∀ outcome, s.conn.pending ≠ some (.sendResponse outcome .saveHorcruxes)) :
    .saved ∉ s'.conn.trace := by
  have hn : .saved ∉ s.conn.trace := by
    intro ht
    obtain ⟨_, _, _, _, hnone⟩ := h.saved_upload ht
    rw [Session.complete_none hnone] at hs
    cases hs
  rcases complete_cases hs with ⟨he, _⟩ | ⟨op, he, _⟩ | ⟨_, _, outcome, hp'⟩
  · rwa [he]
  · simp [he, hn]
  · exact False.elim (hp outcome hp')

namespace TcpServer
variable {ι : Type} {mConfig : Config} {incoming : ι → Bytes}
  {io : Session → Io → Prop} {fs : FileSystem} {srv srv' : TcpServer ι}

/-- Some connection has uploaded and saved `cs` as the file `uuid`. -/
def Completed (srv : TcpServer ι) (uuid : UInt64) (cs : List HorcruxData) : Prop :=
  ∃ i s, srv.connections i = some s ∧ .saved ∈ s.conn.trace ∧ s.conn.Holds uuid cs

/-- The next handler of client `i` saves `cs` as the file `uuid`. -/
def Saving (srv : TcpServer ι) (i : ι) (uuid : UInt64) (cs : List HorcruxData) : Prop :=
  ∃ s outcome, srv.connections i = some s ∧
    s.conn.pending = some (.sendResponse outcome .saveHorcruxes) ∧ s.conn.Holds uuid cs

/-- The files of `uuid` are none, or all those of one completed upload. -/
def OneUpload (srv : TcpServer ι) (uuid : UInt64) : Prop :=
  (∀ suffix, srv.fs (hcxPath uuid suffix) = none) ∨
    ∃ cs, srv.Completed uuid cs ∧ Pieces srv.fs uuid cs

/-- If client `i` is about to save, it does not divide its pieces. -/
def Compatible (srv : TcpServer ι) (i : ι) : Prop :=
  ∀ uuid cs, srv.Saving i uuid cs → Undivided srv.fs uuid cs

theorem Saving.unique (h : srv.Saving i uuid cs) (h' : srv.Saving i v ds) : v = uuid ∧ ds = cs := by
  obtain ⟨s, _, hc, _, hh⟩ := h
  obtain ⟨s', _, hc', _, hh'⟩ := h'
  rw [hc] at hc'
  cases hc'
  exact hh.unique hh'

/-- What holds of the server in every run: completed uploads have all their paths taken. -/
structure Filing (mConfig : Config) (incoming : ι → Bytes) (srv : TcpServer ι) : Prop where
  situated : Situated mConfig incoming srv
  out : srv.fs kOutPath = some .directory
  taken : ∀ uuid cs, srv.Completed uuid cs →
    ∀ k < cs.length, srv.fs (horcruxPath uuid (.ofNat k)) ≠ none

/-- An empty output directory. -/
def EmptyOut (fs : FileSystem) : Prop :=
  fs kOutPath = some .directory ∧ ∀ name, fs (kOutPath ++ [name]) = none

theorem Filing.listening (hout : EmptyOut fs) : Filing mConfig incoming (listening fs) where
  situated _ _ hi := by cases hi
  out := hout.1
  taken := by
    intro _ _ h
    obtain ⟨_, _, hi, _⟩ := h
    cases hi

theorem EmptyOut.compatible (h : EmptyOut srv.fs) (i : ι) : srv.Compatible i :=
  fun _ _ _ => .inr fun _ _ _ => .inl (h.2 _)

variable [DecidableEq ι]

/-- A completed upload stays completed, since its connection is at rest. -/
theorem Completed.step (h : srv.Completed uuid cs) (hsit : Situated mConfig incoming srv)
    (hs : Step mConfig incoming io i srv srv') : srv'.Completed uuid cs := by
  obtain ⟨j, s, hj, ht, hh⟩ := h
  obtain ⟨_, _, _, _, hp⟩ := (hsit j s hj).saved_upload ht
  have hne : j ≠ i := by
    rintro rfl
    cases hs with
    | accept hn => simp [hn] at hj
    | handler hc _ hstep =>
      rw [hc] at hj
      cases hj
      rw [Session.complete_none hp] at hstep
      cases hstep
  exact ⟨j, s, (hs.frame hne).trans hj, ht, hh⟩

/-- What a step of the server does to the filesystem and to the completed uploads. -/
theorem Situated.step_cases (hsit : Situated mConfig incoming srv)
    (hs : Step mConfig incoming io i srv srv') :
    (srv'.fs = srv.fs ∧ (∀ uuid cs, ¬ srv.Saving i uuid cs) ∧
      ∀ uuid cs, srv'.Completed uuid cs → srv.Completed uuid cs) ∨
    ∃ uuid cs, srv.Saving i uuid cs ∧ Saves srv.fs srv'.fs uuid cs ∧ srv'.Completed uuid cs ∧
      ∀ v ds, srv'.Completed v ds → srv.Completed v ds ∨ v = uuid ∧ ds = cs := by
  have hothers : ∀ v ds, srv'.Completed v ds → srv.Completed v ds ∨
      ∃ s, srv'.connections i = some s ∧ .saved ∈ s.conn.trace ∧ s.conn.Holds v ds := by
    intro v ds h
    obtain ⟨j, s, hj, ht, hh⟩ := h
    by_cases he : j = i
    · subst he
      exact .inr ⟨s, hj, ht, hh⟩
    · rw [hs.frame he] at hj
      exact .inl ⟨j, s, hj, ht, hh⟩
  cases hs with
  | accept hn =>
    refine .inl ⟨rfl, ?_, ?_⟩
    · intro uuid cs h
      obtain ⟨s, _, hc, _⟩ := h
      simp [hn] at hc
    · intro v ds hd
      refine (hothers v ds hd).resolve_right ?_
      intro h
      obtain ⟨s, hi, ht, _⟩ := h
      simp only [handleAccept, Function.update_self, Option.some.injEq] at hi
      subst hi
      simp at ht
  | handler hc _ hstep =>
    have hi := hsit i _ hc
    rcases Session.complete_fs hstep with ⟨outcome, hp, hsave, rfl⟩ | ⟨rfl, hp⟩
    · obtain ⟨u, hr, _⟩ := hi.save_pending hp
      obtain ⟨cs, hcs⟩ := Lists.eq_map_some (hi.all_filled hp)
      refine .inr ⟨_, cs, ⟨_, outcome, hc, hp, rfl, hcs⟩, hr.saves ⟨rfl, hcs⟩ hsave, ?_, ?_⟩
      · exact ⟨i, _, Function.update_self .., by simp, rfl, hcs⟩
      · intro v ds hd
        rcases hothers v ds hd with hd | ⟨t, ht, _, hh⟩
        · exact .inl hd
        · simp only [Function.update_self, Option.some.injEq] at ht
          subst ht
          exact .inr (TcpConnection.Holds.unique ⟨rfl, hcs⟩ hh)
    · refine .inl ⟨rfl, ?_, ?_⟩
      · intro uuid cs h
        obtain ⟨t, outcome, ht, hp', _⟩ := h
        rw [hc] at ht
        cases ht
        exact hp outcome hp'
      · intro v ds hd
        refine (hothers v ds hd).resolve_right ?_
        intro h
        obtain ⟨t, ht, hsaved, _⟩ := h
        simp only [Function.update_self, Option.some.injEq] at ht
        subst ht
        exact hi.not_saved_step hstep hp hsaved

theorem Filing.step (h : Filing mConfig incoming srv) (hs : Step mConfig incoming io i srv srv') :
    Filing mConfig incoming srv' := by
  rcases h.situated.step_cases hs with ⟨hfs, _, hback⟩ | ⟨uuid, cs, _, hsaves, _, hback⟩
  · refine ⟨h.situated.step hs, by rw [hfs, h.out], ?_⟩
    intro v ds hd
    rw [hfs]
    exact h.taken v ds (hback v ds hd)
  · refine ⟨h.situated.step hs, by rw [hsaves.out, h.out], ?_⟩
    intro v ds hd k hk
    rcases hback v ds hd with hd | ⟨rfl, rfl⟩
    · have ht := h.taken v ds hd k hk
      rwa [hsaves.taken ht]
    · by_cases hn : srv.fs (horcruxPath v (.ofNat k)) = none
      · simp [hsaves.free h.out (List.getElem?_eq_getElem hk) hn]
      · rwa [hsaves.taken hn]

/-- A step keeps every file id with one upload exactly when it divides no upload. -/
theorem Filing.one_upload_iff (h : Filing mConfig incoming srv)
    (hone : ∀ uuid, srv.OneUpload uuid) (hs : Step mConfig incoming io i srv srv') :
    (∀ uuid, srv'.OneUpload uuid) ↔ srv.Compatible i := by
  have hsit := h.situated
  rcases hsit.step_cases hs with ⟨hfs, hn, _⟩ | ⟨uuid, cs, hsv, hsaves, hdone, hback⟩
  · refine iff_of_true (fun uuid => ?_) fun uuid cs hsv => False.elim (hn uuid cs hsv)
    rw [OneUpload, hfs]
    exact (hone uuid).imp_right fun ⟨cs, hc, hp⟩ => ⟨cs, hc.step hsit hs, hp⟩
  · have hown := hsaves.one_upload_iff h.out (hone uuid) (fun ds hd => h.taken uuid ds hd)
    have hiff : srv'.OneUpload uuid ↔ Undivided srv.fs uuid cs := by
      rw [← hown, OneUpload]
      refine or_congr_right (exists_congr fun ds => and_congr_left fun _ => ⟨?_, ?_⟩)
      · exact fun hd => (hback uuid ds hd).imp_right And.right
      · rintro (hd | rfl)
        · exact hd.step hsit hs
        · exact hdone
    constructor
    · intro hall v ds hsv'
      obtain ⟨rfl, rfl⟩ := hsv.unique hsv'
      exact hiff.mp (hall _)
    · intro hcomp v
      by_cases he : v = uuid
      · subst he
        exact hiff.mpr (hcomp _ cs hsv)
      · refine (hone v).imp (fun hnone suffix => ?_) fun ⟨ds, hd, hp⟩ => ?_
        · rw [hsaves.other_uuid he, hnone]
        · exact ⟨ds, hd.step hsit hs, hp.congr (hsaves.other_uuid he)⟩

/-- One file id, one upload: from an empty output directory, as long as no save divides
its upload, the files of every id are all pieces of one completed upload; and the first
save that does divide one breaks this. -/
theorem one_upload_of_run (hout : EmptyOut fs)
    (h : Agents.Schedule (fun i s t => Step mConfig incoming io i s t ∧ s.Compatible i) is
      (TcpServer.listening fs) srv) :
    (∀ uuid, srv.OneUpload uuid) ∧ ∀ i srv', Step mConfig incoming io i srv srv' →
      ((∀ uuid, srv'.OneUpload uuid) ↔ srv.Compatible i) := by
  have hinv := h.keeps (P := fun srv => Filing mConfig incoming srv ∧ ∀ uuid, srv.OneUpload uuid)
    ?_ ⟨.listening hout, fun uuid => .inl fun suffix => hout.2 _⟩
  · exact ⟨hinv.2, fun i srv' hs => hinv.1.one_upload_iff hinv.2 hs⟩
  · intro i _ s t hx hst
    obtain ⟨hf, hone⟩ := hx
    obtain ⟨hs, hc⟩ := hst
    exact ⟨hf.step hs, (hf.one_upload_iff hone hs).mpr hc⟩

theorem emptyOut_outDirectory : EmptyOut (outDirectory []) :=
  ⟨rfl, fun name => by simp [outDirectory, kOutPath]⟩

theorem one_upload_of_sample : ∃ is srv,
    Agents.Schedule (fun i s t => Step {} (fun _ : Bool => sampleStream) (fun _ _ => True) i s t ∧
      s.Compatible i) is (TcpServer.listening (outDirectory [])) srv ∧
    srv.Completed 7 [⟨[104, 105], []⟩] ∧ ∀ uuid, srv.OneUpload uuid := by
  have hc := fun (srv : TcpServer Bool) (h : srv.fs = outDirectory []) =>
    EmptyOut.compatible (h ▸ emptyOut_outDirectory) false
  have hrun : Agents.Schedule (fun i s t =>
      Step {} (fun _ : Bool => sampleStream) (fun _ _ => True) i s t ∧ s.Compatible i)
      [false, false, false, false, false, false] (TcpServer.listening (outDirectory [])) _ :=
    .cons ⟨.accept rfl, hc _ rfl⟩ (.cons ⟨.handler (r := .ok) rfl trivial rfl, hc _ rfl⟩
      (.cons ⟨.handler (r := .ok) rfl trivial rfl, hc _ rfl⟩
      (.cons ⟨.handler (r := .ok) rfl trivial rfl, hc _ rfl⟩
      (.cons ⟨.handler (r := .ok) rfl trivial rfl, hc _ rfl⟩
      (.cons ⟨.handler (r := .ok) rfl trivial rfl, hc _ rfl⟩ .nil)))))
  exact ⟨_, _, hrun, ⟨false, _, rfl, by decide, rfl, rfl⟩,
    (one_upload_of_run emptyOut_outDirectory hrun).1⟩

/-- Two clients of one file id: one horcrux from the first, two from the second. -/
def sameIdStreams : Bool → Bytes
  | false => (preRequest 7 1 1).val ++ (request 7 0 [1]).bytes
  | true => (preRequest 7 2 2).val ++ (request 7 0 [2]).bytes ++ (request 7 1 [3]).bytes

/-- The second client's save finds its first path taken and stores only its second piece. -/
theorem two_uploads_of_one_id : ¬ ∀ (ι : Type) [DecidableEq ι] (mConfig : Config)
    (incoming : ι → Bytes) (io : Session → Io → Prop) (fs : FileSystem) (is : List ι)
    (srv : TcpServer ι), EmptyOut fs →
    Agents.Schedule (Step mConfig incoming io) is (TcpServer.listening fs) srv →
    ∀ uuid, srv.OneUpload uuid := by
  intro h
  have hrun : Agents.Schedule (Step {} sameIdStreams (fun _ _ => True))
      [false, false, false, false, false, false, true, true, true, true, true, true, true, true]
      (TcpServer.listening (outDirectory [])) _ :=
    .cons (.accept rfl) (.cons (.handler (r := .ok) rfl trivial rfl)
      (.cons (.handler (r := .ok) rfl trivial rfl) (.cons (.handler (r := .ok) rfl trivial rfl)
      (.cons (.handler (r := .ok) rfl trivial rfl) (.cons (.handler (r := .ok) rfl trivial rfl)
      (.cons (.accept rfl) (.cons (.handler (r := .ok) rfl trivial rfl)
      (.cons (.handler (r := .ok) rfl trivial rfl) (.cons (.handler (r := .ok) rfl trivial rfl)
      (.cons (.handler (r := .ok) rfl trivial rfl) (.cons (.handler (r := .ok) rfl trivial rfl)
      (.cons (.handler (r := .ok) rfl trivial rfl)
      (.cons (.handler (r := .ok) rfl trivial rfl) .nil)))))))))))))
  obtain ⟨srv, hrun, srv', hsave, hsaving, htaken, hfree⟩ : ∃ srv,
      Agents.Schedule (Step {} sameIdStreams (fun _ _ => True)) _
        (TcpServer.listening (outDirectory [])) srv ∧
      ∃ srv', Step {} sameIdStreams (fun _ _ => True) true srv srv' ∧
        srv.Saving true 7 [⟨[2], []⟩, ⟨[3], []⟩] ∧
        srv.fs (horcruxPath 7 (.ofNat 0)) = some (.file [1]) ∧
        srv.fs (horcruxPath 7 (.ofNat 1)) = none :=
    ⟨_, hrun, _, .handler (r := .ok) rfl trivial rfl, ⟨_, true, rfl, rfl, rfl, rfl⟩,
      by decide, by decide⟩
  have hfiling := hrun.keeps (fun _ _ _ _ hf hs => Filing.step hf hs)
    (Filing.listening emptyOut_outDirectory)
  have hone := h Bool {} sameIdStreams _ _ _ _ emptyOut_outDirectory hrun
  have hafter := h Bool {} sameIdStreams _ _ _ _ emptyOut_outDirectory (hrun.append (.single hsave))
  rcases (hfiling.one_upload_iff hone hsave).mp hafter 7 _ hsaving with ht | hf
  · exact ht 1 (by decide) hfree
  · have h0 := hf 0 _ rfl
    rw [htaken] at h0
    exact absurd h0 (by decide)

end TcpServer
end Horcrux
