import Horcrux.Proofs.FileIds

namespace Horcrux
open Save Utils

section Effects
variable {a b c d e : FileSystem} {u v : UInt64} {cs ds : List HorcruxData} {s s' : Session}

/-- What a save leaves at a path depends only on that path and on the directory. -/
theorem Saves.local (h : Saves a b u cs) (h' : Saves c d u cs) (hq : a q = c q)
    (hout : a kOutPath = c kOutPath) : b q = d q := by
  by_cases hk : ∃ k < cs.length, q = horcruxPath u (.ofNat k)
  · obtain ⟨k, hlt, rfl⟩ := hk
    rw [h.own k _ (List.getElem?_eq_getElem hlt), h'.own k _ (List.getElem?_eq_getElem hlt),
      hq, hout]
  · have hn : ∀ k < cs.length, q ≠ horcruxPath u (.ofNat k) := fun k hlt he => hk ⟨k, hlt, he⟩
    rw [h.other q hn, h'.other q hn, hq]

/-- Saves of different ids commute. -/
theorem Saves.commute (hne : u ≠ v) (hu : Saves a b u cs) (hv : Saves a c v ds)
    (huv : Saves b d v ds) (hvu : Saves c e u cs) : d = e := by
  funext q
  by_cases hk : ∃ suffix, q = hcxPath u suffix
  · obtain ⟨suffix, rfl⟩ := hk
    rw [huv.other_uuid hne]
    exact hu.local hvu (hv.other_uuid hne suffix).symm hv.out.symm
  · have hn : ∀ k < cs.length, q ≠ horcruxPath u (.ofNat k) := fun k _ he =>
      hk ⟨_, he.trans (horcruxPath_eq_hcxPath u _)⟩
    rw [hvu.other q hn]
    exact huv.local hv (hu.other q hn) hu.out

/-- What the pending operation does to the filesystem when it completes. -/
def Session.effect (s : Session) (fs : FileSystem) : FileSystem :=
  match s.conn.pending with
  | some (.sendResponse _ .saveHorcruxes) => (s.conn.saveHorcruxes fs).getD fs
  | _ => fs

theorem Session.effect_of_not_saving
    (hp : ∀ outcome, s.conn.pending ≠ some (.sendResponse outcome .saveHorcruxes))
    (fs : FileSystem) : s.effect fs = fs := by
  unfold Session.effect
  split
  · rename_i outcome he
    exact False.elim (hp outcome he)
  · rfl

theorem Session.fail_any_fs (h : s.fail k fs = .next (s', fs')) (g : FileSystem) :
    s.fail k g = .next (s', g) := by
  unfold Session.fail at h ⊢
  split at h
  · split at h
    · rename_i hlt
      cases h
      rw [if_pos hlt]
    · cases h
  · cases h

/-- The filesystem has no part in what a connection does next. -/
theorem Session.complete_any_fs (h : s.complete r fs = .next (s', fs')) (g : FileSystem) :
    s.complete r g = .next (s', s.effect g) := by
  cases hp : s.conn.pending with
  | none => rw [Session.complete_none hp] at h; cases h
  | some op =>
    cases op with
    | sendResponse outcome next =>
      obtain ⟨c', hc, rfl⟩ := Session.complete_response_next hp h
      rw [Session.complete_response hp]
      cases next with
      | readRequestHeader | nothing =>
        cases hc
        rw [Session.effect_of_not_saving (by simp [hp])]
        rfl
      | saveHorcruxes =>
        obtain ⟨fs'', hf, he⟩ := Option.bind_eq_some_iff.mp hc
        cases he
        have hfilled : s.conn.mCurrentRequestHorcruxes.all Option.isSome = true := by
          rw [← saveLoop_isSome s.conn.mPreRequestHeader.mUuid _ 0 fs]
          exact Option.isSome_of_eq_some hf
        obtain ⟨g', hg⟩ := exists_saveHorcruxes hfilled g
        simp [TcpConnection.onResponse, hg, Outcome.ofOption, Session.effect, hp]
    | readPreRequestHeader | readRequestHeader =>
      rw [Session.effect_of_not_saving (by simp [hp])]
      cases r with
      | error k =>
        simp only [Session.complete, hp] at h ⊢
        exact Session.fail_any_fs h g
      | ok =>
        simp only [Session.complete, hp] at h ⊢
        split at h
        · cases h
        · cases h
          rfl
    | readRequestContent =>
      rw [Session.effect_of_not_saving (by simp [hp])]
      cases r with
      | error k =>
        simp only [Session.complete, hp] at h ⊢
        exact Session.fail_any_fs h g
      | ok =>
        simp only [Session.complete, hp] at h ⊢
        split at h
        · cases h
        · rename_i bytes rest _
          cases hc : s.conn.onRequestContent bytes.val with
          | none => simp [hc, Outcome.ofOption] at h
          | some c =>
            rw [hc] at h
            cases h
            rfl

/-- A connection whose reads fail only at the end of its stream is deterministic. -/
theorem Session.complete_det (hr : s.EndOfStream r) (hr' : s.EndOfStream r')
    (h : s.complete r fs = .next x) (h' : s.complete r' fs = .next y) : x = y := by
  cases hn : s.conn.requested with
  | none =>
    have hsame : s.complete r fs = s.complete r' fs := by
      unfold TcpConnection.requested at hn
      split at hn <;> try cases hn
      cases hp : s.conn.pending with
      | none => rw [Session.complete_none hp, Session.complete_none hp]
      | some op =>
        cases op with
        | sendResponse outcome next =>
          rw [Session.complete_response hp, Session.complete_response hp]
        | _ => simp_all
    rw [hsame, h'] at h
    exact (Outcome.next.inj h).symm
  | some n =>
    cases r with
    | ok =>
      have hlen := Session.complete_ok_length hn h
      cases r' with
      | ok => rw [h'] at h; exact (Outcome.next.inj h).symm
      | error k =>
        have hlt := (hr' n k hn rfl).1
        omega
    | error k =>
      obtain ⟨hlt, rfl⟩ := hr n k hn rfl
      cases r' with
      | ok =>
        have hlen := Session.complete_ok_length hn h'
        omega
      | error k' =>
        obtain ⟨_, rfl⟩ := hr' n k' hn rfl
        rw [h'] at h
        exact (Outcome.next.inj h).symm

/-- A change of the filesystem that stores nothing, or pieces of the file that `stream`
announces. -/
def Owned (stream : Bytes) (F : FileSystem → FileSystem) : Prop :=
  (∀ fs, F fs = fs) ∨ ∃ (pre : CharArray 16) (rest : Bytes) (cs : List HorcruxData),
    stream = pre.val ++ rest ∧ ∀ fs, Saves fs (F fs) (announcement pre).mUuid cs

theorem Situation.effect_owned (h : Situation mConfig stream s) : Owned stream s.effect := by
  by_cases hp : ∃ outcome, s.conn.pending = some (.sendResponse outcome .saveHorcruxes)
  · obtain ⟨outcome, hp⟩ := hp
    obtain ⟨u, hr, _, hx, _⟩ := h.save_pending hp
    have hall := h.all_filled hp
    obtain ⟨cs, hcs⟩ := Lists.eq_map_some hall
    have huuid : s.conn.mPreRequestHeader.mUuid = (announcement u.pre).mUuid := by
      rw [hr.header]
      rfl
    refine .inr ⟨u.pre, u.messages.flatMap Message.bytes ++ s.unread, cs, ?_, fun fs => ?_⟩
    · rw [hx, Upload.bytes, List.append_assoc]
    · obtain ⟨fs', hfs⟩ := exists_saveHorcruxes hall fs
      have he : s.effect fs = fs' := by simp [Session.effect, hp, hfs]
      rw [he]
      exact hr.saves ⟨huuid, hcs⟩ hfs
  · exact .inl (Session.effect_of_not_saving fun outcome he => hp ⟨outcome, he⟩)

end Effects

namespace TcpServer
variable {ι : Type} {mConfig : Config} {incoming : ι → Bytes}
  {io : Session → Io → Prop} {fs : FileSystem} {srv srv' a b t u : TcpServer ι}

/-- The pre-requests of different clients carry different file ids. -/
def DistinctIds (incoming : ι → Bytes) : Prop :=
  ∀ i j (pre pre' : CharArray 16) (rest rest' : Bytes), i ≠ j → incoming i = pre.val ++ rest →
    incoming j = pre'.val ++ rest' → (announcement pre).mUuid ≠ (announcement pre').mUuid

/-- What a client can do next, as a function of its own connection alone: become
another session, and change the filesystem. -/
inductive Move (mConfig : Config) (stream : Bytes) (io : Session → Io → Prop) :
    Option Session → Session → (FileSystem → FileSystem) → Prop
  | accept : Move mConfig stream io none (.accepted mConfig stream) id
  | handler : io s r → (∀ g, s.complete r g = .next (s', s.effect g)) →
      Move mConfig stream io (some s) s' s.effect

theorem Move.det (h : Move mConfig stream Session.EndOfStream x s F)
    (h' : Move mConfig stream Session.EndOfStream x s' F') : s = s' ∧ F = F' := by
  cases h with
  | accept =>
    cases h'
    exact ⟨rfl, rfl⟩
  | handler hr hc =>
    cases h' with
    | handler hr' hc' =>
      have he := Session.complete_det hr hr' (hc fun _ => none) (hc' fun _ => none)
      exact ⟨(Prod.mk.inj he).1, rfl⟩

theorem Situated.move_owned (h : Situated mConfig incoming srv)
    (hm : Move mConfig (incoming i) io (srv.connections i) s F) : Owned (incoming i) F := by
  generalize hx : srv.connections i = x at hm
  cases hm with
  | accept => exact .inl fun _ => rfl
  | handler _ _ => exact (h i _ hx).effect_owned

/-- The changes of two clients with different ids commute. -/
theorem owned_commute (hd : DistinctIds incoming) (hne : i ≠ j) (hF : Owned (incoming i) F)
    (hG : Owned (incoming j) G) (fs : FileSystem) : G (F fs) = F (G fs) := by
  rcases hF with hF | ⟨pre, rest, cs, hx, hF⟩
  · rw [hF, hF]
  · rcases hG with hG | ⟨pre', rest', ds, hx', hG⟩
    · rw [hG, hG]
    · exact Saves.commute (hd i j pre pre' rest rest' hne hx hx') (hF fs) (hG fs) (hG _) (hF _)

variable [DecidableEq ι]

theorem step_iff_move : Step mConfig incoming io i srv srv' ↔
    ∃ s F, Move mConfig (incoming i) io (srv.connections i) s F ∧
      srv' = ⟨F srv.fs, Function.update srv.connections i (some s)⟩ := by
  constructor
  · intro hs
    cases hs with
    | accept hn =>
      rw [hn]
      exact ⟨_, _, .accept, rfl⟩
    | handler hc hr hstep =>
      rw [hc]
      have hany := Session.complete_any_fs hstep
      have hfs := hstep.symm.trans (hany srv.fs)
      simp only [Outcome.next.injEq, Prod.mk.injEq, true_and] at hfs
      exact ⟨_, _, .handler hr hany, by rw [hfs]⟩
  · intro h
    obtain ⟨s, F, hm, rfl⟩ := h
    generalize hx : srv.connections i = x at hm
    cases hm with
    | accept => exact .accept hx
    | handler hr hc => exact .handler hx hr (hc srv.fs)

/-- Clients with different ids run independently of each other. -/
theorem independent (hd : DistinctIds incoming) :
    Agents.Independent (Step mConfig incoming Session.EndOfStream)
      (Situated mConfig incoming) where
  keeps hsit hs := hsit.step hs
  det := by
    intro srv i t u hsit ht hu
    obtain ⟨s, F, hm, rfl⟩ := step_iff_move.mp ht
    obtain ⟨s', F', hm', rfl⟩ := step_iff_move.mp hu
    obtain ⟨rfl, rfl⟩ := hm.det hm'
    rfl
  commute := by
    intro srv i j t u hsit hne ht hu
    have hfi := ht.frame (Ne.symm hne)
    have hfj := hu.frame hne
    obtain ⟨s, F, hm, rfl⟩ := step_iff_move.mp ht
    obtain ⟨s', F', hm', rfl⟩ := step_iff_move.mp hu
    refine ⟨_, step_iff_move.mpr ⟨s', F', hfi ▸ hm', rfl⟩,
      step_iff_move.mpr ⟨s, F, hfj ▸ hm, ?_⟩⟩
    have hfs := owned_commute hd hne (hsit.move_owned hm) (hsit.move_owned hm') srv.fs
    simp only [TcpServer.mk.injEq]
    exact ⟨hfs, Function.update_comm hne _ _ _⟩

/-- Client `i` can not move any more. -/
def AtRest (mConfig : Config) (incoming : ι → Bytes) (i : ι) (srv : TcpServer ι) : Prop :=
  ∀ srv', ¬ Step mConfig incoming Session.EndOfStream i srv srv'

/-- Other clients do not wake up a client at rest. -/
theorem AtRest.step (h : AtRest mConfig incoming i srv)
    (hs : Step mConfig incoming Session.EndOfStream j srv srv') (hne : i ≠ j) :
    AtRest mConfig incoming i srv' := by
  intro t ht
  obtain ⟨s, F, hm, _⟩ := step_iff_move.mp ht
  rw [hs.frame hne] at hm
  exact h _ (step_iff_move.mpr ⟨s, F, hm, rfl⟩)

/-- A step of another client leaves the files of this one's id alone. -/
theorem Situated.other_files (h : Situated mConfig incoming srv) (hd : DistinctIds incoming)
    (hs : Step mConfig incoming io j srv srv') (hne : i ≠ j) {pre : CharArray 16}
    (hx : incoming i = pre.val ++ rest) (suffix : String) :
    srv'.fs (hcxPath (announcement pre).mUuid suffix) =
      srv.fs (hcxPath (announcement pre).mUuid suffix) := by
  obtain ⟨s, F, hm, rfl⟩ := step_iff_move.mp hs
  rcases h.move_owned hm with hF | ⟨pre', rest', cs, hx', hF⟩
  · dsimp only
    rw [hF]
  · exact (hF srv.fs).other_uuid (hd i j pre pre' rest rest' hne hx hx') suffix

/-- Isolation: if the pre-requests carry different file ids, all interleavings of the
connections end with the same filesystem, and the files of each id are those that its
connection would have left if it had run alone. -/
theorem isolation (hd : DistinctIds incoming)
    (ht : Agents.Schedule (Step mConfig incoming Session.EndOfStream) is (listening fs) t)
    (htend : Agents.Stuck (Step mConfig incoming Session.EndOfStream) t) :
    (∀ js u, Agents.Schedule (Step mConfig incoming Session.EndOfStream) js (listening fs) u →
      Agents.Stuck (Step mConfig incoming Session.EndOfStream) u → u.fs = t.fs) ∧
    (∀ i, ∃ n u, Agents.Schedule (Step mConfig incoming Session.EndOfStream) (List.replicate n i)
      (listening fs) u ∧ AtRest mConfig incoming i u) ∧
    (∀ i (pre : CharArray 16) rest, incoming i = pre.val ++ rest →
      ∀ n u, Agents.Schedule (Step mConfig incoming Session.EndOfStream) (List.replicate n i)
        (listening fs) u → AtRest mConfig incoming i u →
      ∀ suffix, t.fs (hcxPath (announcement pre).mUuid suffix) =
        u.fs (hcxPath (announcement pre).mUuid suffix)) := by
  have hind : Agents.Independent (Step mConfig incoming Session.EndOfStream) _ := independent hd
  have hstart : Situated mConfig incoming (listening fs) := fun _ _ hi => by cases hi
  refine ⟨?_, hind.exists_rest hstart ht htend, ?_⟩
  · intro js u hu huend
    rw [hind.unique hstart hu huend ht htend]
  · intro i pre rest hx n u hu hrest
    obtain ⟨cs, _, hcs⟩ := hind.descent hstart ht htend hu
    have hk := hcs.keeps (P := fun s => Situated mConfig incoming s ∧ AtRest mConfig incoming i s ∧
      ∀ suffix, s.fs (hcxPath (announcement pre).mUuid suffix) =
        u.fs (hcxPath (announcement pre).mUuid suffix)) ?_ ⟨.of_run hu, hrest, fun _ => rfl⟩
    · exact hk.2.2
    · intro j _ s s' hx hs
      obtain ⟨hsit, hr, hf⟩ := hx
      have hne : i ≠ j := by
        rintro rfl
        exact hr s' hs
      exact ⟨hsit.step hs, hr.step hs hne, fun suffix =>
        (hsit.other_files hd hs hne hx suffix).trans (hf suffix)⟩

/-- One client uploads a file, and another one is cut off after its pre-request. -/
def cutOffStreams : Bool → Bytes
  | false => sampleStream
  | true => (preRequest 8 1 1).val

theorem distinct_cutOffStreams : DistinctIds cutOffStreams := by
  have hid : ∀ i (pre : CharArray 16) rest, cutOffStreams i = pre.val ++ rest →
      (announcement pre).mUuid = if i then 8 else 7 := by
    intro i pre rest hx
    have hpre : pre.val = (cutOffStreams i).take 16 := by
      rw [hx, List.take_left' pre.property]
    obtain ⟨bs, hb⟩ := pre
    dsimp only at hpre
    subst hpre
    cases i <;> rfl
  intro i j pre pre' rest rest' hne hx hx'
  rw [hid i pre rest hx, hid j pre' rest' hx']
  cases i <;> cases j <;> simp_all

theorem isolation_cutOff : ∃ is t,
    Agents.Schedule (Step {} cutOffStreams Session.EndOfStream) is
      (listening (outDirectory [])) t ∧ t.fs (horcruxPath 7 0) = some (.file [104, 105]) ∧
    ∀ js u, Agents.Schedule (Step {} cutOffStreams Session.EndOfStream) js
      (listening (outDirectory [])) u →
      Agents.Stuck (Step {} cutOffStreams Session.EndOfStream) u → u.fs = t.fs := by
  have hok : ∀ s : Session, s.EndOfStream .ok := fun _ _ _ _ h => nomatch h
  obtain ⟨t, hrun, hrest, hfile⟩ : ∃ t,
      Agents.Schedule (Step {} cutOffStreams Session.EndOfStream)
        [false, true, true, false, true, false, false, false, true, false]
        (listening (outDirectory [])) t ∧
      (∀ i, ∃ s, t.connections i = some s ∧ s.conn.pending = none) ∧
      t.fs (horcruxPath 7 0) = some (.file [104, 105]) := by
    refine ⟨_, .cons (.accept rfl) (.cons (.accept rfl) (.cons (.handler rfl (hok _) rfl)
      (.cons (.handler rfl (hok _) rfl) (.cons (.handler rfl (hok _) rfl)
      (.cons (.handler rfl (hok _) rfl) (.cons (.handler rfl (hok _) rfl)
      (.cons (.handler rfl (hok _) rfl) (.cons (.handler (r := .error 0) rfl ?_ rfl)
      (.cons (.handler rfl (hok _) rfl) .nil))))))))), ?_, by decide⟩
    · intro n k hn hk
      cases hn
      cases hk
      exact ⟨by decide, rfl⟩
    · intro i
      cases i <;> exact ⟨_, rfl, rfl⟩
  have hstuck : Agents.Stuck (Step {} cutOffStreams Session.EndOfStream) t := by
    intro i t' hs
    obtain ⟨s, hc, hp⟩ := hrest i
    cases hs with
    | accept hn => simp [hn] at hc
    | handler hc' _ hstep =>
      rw [hc] at hc'
      cases hc'
      rw [Session.complete_none hp] at hstep
      cases hstep
  exact ⟨_, t, hrun, hfile, (isolation distinct_cutOffStreams hrun hstuck).1⟩

end TcpServer
end Horcrux
