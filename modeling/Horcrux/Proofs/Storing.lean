import Horcrux.Lib.Lists
import Horcrux.Proofs.Grammar
import Horcrux.TcpServer

namespace Horcrux
open Save Utils

/-- All announced horcruxes have been received. -/
def TcpConnection.Received (c : TcpConnection) : Prop :=
  c.Accepted ∧ c.mCurrentRequestHorcruxes.all Option.isSome = true

/-- Between two filesystems, only free paths of the connection's own horcruxes changed,
and each of them holds the content of its slot now. -/
def TcpConnection.Stores (c : TcpConnection) (fs fs' : FileSystem) : Prop :=
  ∀ p, fs' p ≠ fs p → isRegularFile fs p = false ∧ ∃ (i : Nat) (hcx : HorcruxData),
    i < c.mPreRequestHeader.mNumHorcruxes.toNat ∧
    p = horcruxPath c.mPreRequestHeader.mUuid (.ofNat i) ∧
    c.mCurrentRequestHorcruxes[i]? = some (some hcx) ∧ fs' p = some (.file hcx.mContent)

/-- What saveHorcruxes does to the filesystem with the pieces `cs`. -/
structure Saves (fs fs' : FileSystem) (uuid : UInt64) (cs : List HorcruxData) : Prop where
  own : ∀ (k : Nat) hcx, cs[k]? = some hcx → fs' (horcruxPath uuid (.ofNat k)) =
    if fs (horcruxPath uuid (.ofNat k)) = none ∧ fs kOutPath = some .directory then
      some (.file hcx.mContent) else fs (horcruxPath uuid (.ofNat k))
  other : ∀ q, (∀ k < cs.length, q ≠ horcruxPath uuid (.ofNat k)) → fs' q = fs q

/-- The pieces that the connection holds for `uuid`, all of them there. -/
def TcpConnection.Holds (c : TcpConnection) (uuid : UInt64) (cs : List HorcruxData) : Prop :=
  c.mPreRequestHeader.mUuid = uuid ∧ c.mCurrentRequestHorcruxes = cs.map some

section Save
variable {mConfig : Config} {c : TcpConnection} {u : Upload mConfig} {fs fs' : FileSystem}
  {uuid v : UInt64} {cs ds : List HorcruxData}

theorem Saves.out (h : Saves fs fs' uuid cs) : fs' kOutPath = fs kOutPath :=
  h.other _ fun _ _ => horcruxPath_ne_out _ _

/-- A taken path stays as it is. -/
theorem Saves.taken (h : Saves fs fs' uuid cs) (hp : fs p ≠ none) : fs' p = fs p := by
  by_cases hk : ∃ k < cs.length, p = horcruxPath uuid (.ofNat k)
  · obtain ⟨k, hlt, rfl⟩ := hk
    rw [h.own k _ (List.getElem?_eq_getElem hlt), if_neg (fun hn => hp hn.1)]
  · exact h.other p fun k hlt he => hk ⟨k, hlt, he⟩

/-- A free path of the upload gets its piece. -/
theorem Saves.free (h : Saves fs fs' uuid cs) (hout : fs kOutPath = some .directory) {k : Nat}
    (hk : cs[k]? = some hcx) (hn : fs (horcruxPath uuid (.ofNat k)) = none) :
    fs' (horcruxPath uuid (.ofNat k)) = some (.file hcx.mContent) := by
  rw [h.own k hcx hk, if_pos ⟨hn, hout⟩]

/-- What a save changes is a free path of its own. -/
theorem Saves.changed (h : Saves fs fs' uuid cs) (hp : fs' p ≠ fs p) :
    ∃ (k : Nat) (hcx : HorcruxData), cs[k]? = some hcx ∧ p = horcruxPath uuid (.ofNat k) ∧
      fs p = none ∧ fs' p = some (.file hcx.mContent) := by
  have hex : ∃ k < cs.length, p = horcruxPath uuid (.ofNat k) := by
    by_contra hn
    apply hp
    apply h.other
    intro k hk he
    exact hn ⟨k, hk, he⟩
  obtain ⟨k, hk, rfl⟩ := hex
  have he := h.own k _ (List.getElem?_eq_getElem hk)
  rw [he] at hp ⊢
  split at hp
  · rename_i hfree
    exact ⟨k, _, List.getElem?_eq_getElem hk, rfl, hfree.1, if_pos hfree⟩
  · exact False.elim (hp rfl)

theorem TcpConnection.Holds.unique (h : c.Holds uuid cs) (h' : c.Holds v ds) :
    v = uuid ∧ ds = cs := by
  refine ⟨h'.1.symm.trans h.1, ?_⟩
  exact List.map_injective_iff.mpr (Option.some_injective _) (h'.2.symm.trans h.2)

theorem TcpConnection.Receives.length_holds (hr : c.Receives u) (hh : c.Holds uuid cs) :
    cs.length = u.count := by
  have hslots := congrArg List.length (hh.2.symm.trans hr.slots)
  rwa [List.length_map, u.length_slots] at hslots

/-- saveHorcruxes saves what the connection holds. -/
theorem TcpConnection.Receives.saves (hr : c.Receives u) (hh : c.Holds uuid cs)
    (hs : c.saveHorcruxes fs = some fs') : Saves fs fs' uuid cs := by
  have hlen : cs.length ≤ 2 ^ 32 := by
    rw [hr.length_holds hh]
    exact Nat.le_of_lt u.announced.mNumHorcruxes.toNat_lt
  rw [TcpConnection.saveHorcruxes, hh.1, hh.2] at hs
  obtain ⟨hat, hother⟩ := saveLoop_spec (k := 0) hs (by simpa using hlen)
  simp only [Nat.zero_add] at hat hother
  refine ⟨fun k hcx hk => hat k hcx (by simp [hk]), fun q hq => hother q ?_⟩
  simpa using hq

theorem TcpConnection.Receives.stores (hr : c.Receives u)
    (hall : c.mCurrentRequestHorcruxes.all Option.isSome = true)
    (hs : c.saveHorcruxes fs = some fs') : c.Stores fs fs' := by
  obtain ⟨cs, hcs⟩ := Lists.eq_map_some hall
  intro p hp
  obtain ⟨k, hcx, hk, hpath, hnone, hfile⟩ := (hr.saves ⟨rfl, hcs⟩ hs).changed hp
  refine ⟨by simp [isRegularFile, hnone], k, hcx, ?_, hpath, by simp [hcs, hk], hfile⟩
  have hlt := (List.getElem?_eq_some_iff.mp hk).1
  rw [hr.length_holds ⟨rfl, hcs⟩] at hlt
  rw [hr.header]
  exact hlt

end Save

theorem failure_not_mem_received (next : NextOp) (k : Nat) :
    .started (.sendResponse false next) ∉ receivedTrace k := by
  intro h
  simpa using mem_receivedTrace h

theorem failure_not_mem_complete (next : NextOp) (k : Nat) :
    .started (.sendResponse false next) ∉ completeTrace k := by
  simpa [completeTrace] using failure_not_mem_received next k

/-- A trace has no FAILURE, or has one at its end. -/
theorem Situation.failure_trace {s : Session} (h : Situation mConfig stream s) :
    ∃ xs ys, s.conn.trace = xs ++ ys ∧ ys.length ≤ 1 ∧
      ∀ next, .started (.sendResponse false next) ∉ xs := by
  cases h with
  | fresh => exact ⟨[.started .readPreRequestHeader], [], rfl, by simp, by simp⟩
  | lost _ _ ht => exact ⟨_, [], by simpa using ht, by simp, by simp⟩
  | refused _ _ _ _ ht => exact ⟨[.started .readPreRequestHeader], [_], ht, by simp, by simp⟩
  | answering u _ _ _ _ ht =>
    exact ⟨_, [], by simpa using ht, by simp, fun next => failure_not_mem_received next _⟩
  | listening u _ _ _ _ ht =>
    exact ⟨_, [_], ht, by simp, fun next => failure_not_mem_received next _⟩
  | reading u _ _ _ _ _ _ _ ht =>
    exact ⟨_, [], by simpa using ht, by simp, by simp [failure_not_mem_received]⟩
  | cut u _ _ _ _ ht =>
    rcases ht with ht | ht
    · exact ⟨_, [_], ht, by simp, fun next => failure_not_mem_received next _⟩
    · exact ⟨_, [], by simpa using ht, by simp, by simp [failure_not_mem_received]⟩
  | rejected u _ _ _ _ _ _ ht =>
    exact ⟨receivedTrace u.messages.length ++ [.started .readRequestHeader], [_],
      by simpa using ht, by simp, by simp [failure_not_mem_received]⟩
  | complete u _ _ _ _ ht =>
    exact ⟨_, [], by simpa using ht, by simp, fun next => failure_not_mem_complete next _⟩
  | saved u _ _ _ _ ht =>
    exact ⟨_, [_], ht, by simp, fun next => failure_not_mem_complete next _⟩

/-- After a FAILURE a connection starts nothing any more. -/
theorem Situation.failure_last {s : Session} (h : Situation mConfig stream s)
    (ht : s.conn.trace = before ++ .started (.sendResponse false next) :: after) : after = [] := by
  obtain ⟨xs, ys, he, hl, hx⟩ := h.failure_trace
  rw [ht] at he
  rcases List.append_eq_append_iff.mp he with ⟨zs, rfl, hz⟩ | ⟨zs, rfl, hz⟩
  · cases zs with
    | nil =>
      rw [List.nil_append] at hz
      rw [← hz] at hl
      simpa using hl
    | cons z zs =>
      obtain ⟨rfl, _⟩ := List.cons.inj hz
      exact False.elim (hx next (by simp))
  · rw [hz] at hl
    simp only [List.length_append, List.length_cons] at hl
    exact List.eq_nil_of_length_eq_zero (by omega)

/-- A connection that has sent FAILURE has nothing left but to finish that write. -/
theorem Situation.failure_pending {s : Session} (h : Situation mConfig stream s)
    (ht : .started (.sendResponse false next) ∈ s.conn.trace) :
    s.conn.pending = some (.sendResponse false .nothing) ∨ s.conn.pending = none := by
  cases h with
  | refused _ _ _ hp _ | rejected _ _ _ _ _ _ hp _ => exact hp
  | lost _ hp _ | cut _ _ _ hp _ _ | saved _ _ _ _ hp _ => exact .inr hp
  | fresh => simp at ht
  | answering _ _ _ _ _ he | listening _ _ _ _ _ he | reading _ _ _ _ _ _ _ _ he =>
    simp [he, failure_not_mem_received] at ht
  | complete _ _ _ _ _ he => simp [he, failure_not_mem_complete] at ht

/-- After a FAILURE nothing is read any more, and nothing is answered. -/
theorem Situation.failure_step {s s' : Session} (h : Situation mConfig stream s)
    (ht : .started (.sendResponse false next) ∈ s.conn.trace)
    (hs : s.complete io fs = .next (s', fs')) :
    s'.conn.trace = s.conn.trace ∧ s'.unread = s.unread ∧ fs' = fs := by
  rcases h.failure_pending ht with hp | hp
  · obtain ⟨c', hc, rfl⟩ := Session.complete_response_next hp hs
    cases hc
    exact ⟨rfl, rfl, rfl⟩
  · rw [Session.complete_none hp] at hs
    cases hs

theorem failure_run {x y : Session × FileSystem} (hx : Situation mConfig stream x.1)
    (ht : .started (.sendResponse false next) ∈ x.1.conn.trace)
    (hy : Agents.Schedule Session.Step ios x y) :
    y.1.conn.trace = x.1.conn.trace ∧ y.1.unread = x.1.unread ∧ y.2 = x.2 := by
  have h := hy.keeps (P := fun y => Situation mConfig stream y.1 ∧
    y.1.conn.trace = x.1.conn.trace ∧ y.1.unread = x.1.unread ∧ y.2 = x.2) ?_ ⟨hx, rfl, rfl, rfl⟩
  · exact h.2
  · intro io _ x y hx hstep
    obtain ⟨s, f⟩ := x
    obtain ⟨s', f'⟩ := y
    obtain ⟨hs, he, hu, hf⟩ := hx
    obtain ⟨he', hu', hf'⟩ := hs.failure_step (by rw [he]; exact ht) hstep
    exact ⟨hs.step hstep, he'.trans he, hu'.trans hu, hf'.trans hf⟩

namespace TcpServer
variable {ι : Type} [DecidableEq ι] {mConfig : Config} {incoming : ι → Bytes}
  {io : Session → Io → Prop} {fs : FileSystem} {srv srv' : TcpServer ι}

/-- Every accepted connection is in one of the situations of its own stream. -/
def Situated (mConfig : Config) (incoming : ι → Bytes) (srv : TcpServer ι) : Prop :=
  ∀ i s, srv.connections i = some s → Situation mConfig (incoming i) s

/-- A step of one client leaves the other connections alone. -/
theorem Step.frame (hs : Step mConfig incoming io i srv srv') (hj : j ≠ i) :
    srv'.connections j = srv.connections j := by
  cases hs <;> simp [handleAccept, Function.update_of_ne hj]

theorem Situated.step (h : Situated mConfig incoming srv)
    (hs : Step mConfig incoming io i srv srv') : Situated mConfig incoming srv' := by
  intro j s hj
  by_cases he : j = i
  · subst he
    cases hs with
    | accept hn =>
      simp only [handleAccept, Function.update_self, Option.some.injEq] at hj
      subst hj
      exact .fresh
    | handler hc _ hstep =>
      simp only [Function.update_self, Option.some.injEq] at hj
      subst hj
      exact (h j _ hc).step hstep
  · rw [hs.frame he] at hj
    exact h j s hj

theorem Situated.of_run (h : Agents.Schedule (Step mConfig incoming io) is (listening fs) srv) :
    Situated mConfig incoming srv :=
  h.keeps (P := Situated mConfig incoming) (fun _ _ _ _ hs hstep => hs.step hstep)
    (fun _ _ hi => by cases hi)

/-- In a run of the server, a step of client `i` changes the filesystem only if `i` has
sent all its horcruxes, and then only by storing them. -/
theorem Situated.stores (h : Situated mConfig incoming srv)
    (hs : Step mConfig incoming io i srv srv') :
    srv'.fs = srv.fs ∨ ∃ s, srv.connections i = some s ∧ s.conn.Received ∧
      s.conn.Stores srv.fs srv'.fs := by
  cases hs with
  | accept _ => exact .inl rfl
  | handler hc _ hstep =>
    have hsit := h i _ hc
    rcases Session.complete_fs hstep with ⟨outcome, hp, hsave, _⟩ | ⟨he, _⟩
    · obtain ⟨u, hr, _, _, ha⟩ := hsit.save_pending hp
      have hall := hsit.all_filled hp
      exact .inr ⟨_, hc, ⟨ha, hall⟩, hr.stores hall hsave⟩
    · exact .inl he

theorem file_kept (h : Situated mConfig incoming srv) (hs : Step mConfig incoming io i srv srv')
    (hp : srv.fs p = some (.file b)) : srv'.fs p = some (.file b) := by
  rcases h.stores hs with he | ⟨s, _, _, hst⟩
  · rw [he, hp]
  · by_contra hn
    have hfree := (hst p (by rw [hp]; exact hn)).1
    simp [isRegularFile, hp] at hfree

/-- No run of any number of connections modifies or removes a regular file. -/
theorem file_kept_of_run
    (h : Agents.Schedule (Step mConfig incoming io) is (listening fs) srv)
    (hp : fs p = some (.file b)) : srv.fs p = some (.file b) := by
  have hk := h.keeps (P := fun srv => Situated mConfig incoming srv ∧ srv.fs p = some (.file b)) ?_
    ⟨fun _ _ hi => (by cases hi), hp⟩
  · exact hk.2
  · intro i _ srv srv' hx hstep
    obtain ⟨hs, hf⟩ := hx
    exact ⟨hs.step hstep, file_kept hs hstep hf⟩

end TcpServer

theorem Situation.saved_received {s : Session} (h : Situation mConfig stream s)
    (ht : .saved ∈ s.conn.trace) : s.conn.Received := by
  obtain ⟨u, hr, hc, _, _⟩ := h.saved_upload ht
  refine ⟨?_, hr.all_filled hc⟩
  rcases h.upload with ⟨he, _⟩ | ⟨_, _, _, _, ha | ha⟩
  · have hlen := u.length_slots
    rw [← hr.slots, he] at hlen
    exact absurd hc.2 (by simp [← hlen])
  · simp [TcpConnection.Accepted, ha, List.replicate_succ]
  · simp [TcpConnection.Accepted, ha, List.replicate_succ]

/-- Uploads are all-or-nothing and write-once. Whatever a peer sends and wherever its
connection breaks: nothing is stored before all horcruxes are there, a FAILURE is the last
thing a connection does, and what is stored are the received contents at paths that were
free. No run of any number of connections touches an existing regular file. -/
theorem upload_all_or_nothing {ι : Type} [DecidableEq ι] (mConfig : Config) (fs : FileSystem)
    (incoming : ι → Bytes) :
    (∀ stream x, Session.Reachable mConfig stream fs x →
      (¬ x.1.conn.Received → x.2 = fs) ∧
      (x.1.conn.Received → x.1.conn.Stores fs x.2) ∧
      (∀ before next after,
        x.1.conn.trace = before ++ .started (.sendResponse false next) :: after →
        after = [] ∧ ∀ ios y, Agents.Schedule Session.Step ios x y →
          y.1.conn.trace = x.1.conn.trace ∧ y.1.unread = x.1.unread ∧ y.2 = x.2)) ∧
    (∀ io is srv, Agents.Schedule (TcpServer.Step mConfig incoming io) is (.listening fs) srv →
      (∀ i srv', TcpServer.Step mConfig incoming io i srv srv' → srv'.fs = srv.fs ∨
        ∃ s, srv.connections i = some s ∧ s.conn.Received ∧ s.conn.Stores srv.fs srv'.fs) ∧
      (∀ p b, fs p = some (.file b) → srv.fs p = some (.file b))) := by
  refine ⟨?_, ?_⟩
  · intro stream x hx
    have hsit := Situation.of_reachable hx
    refine ⟨?_, ?_, ?_⟩
    · intro hn
      rcases hx.fs_eq with ⟨_, he⟩ | ⟨ht, _⟩
      · exact he
      · exact False.elim (hn (hsit.saved_received ht))
    · intro h
      obtain ⟨_, hall⟩ := h
      rcases hx.fs_eq with ⟨_, he⟩ | ⟨ht, _, hsave⟩
      · intro p hp
        exact False.elim (hp (by rw [he]))
      · obtain ⟨u, hr, _⟩ := hsit.saved_upload ht
        exact hr.stores hall hsave
    · intro before next after ht
      have hmem : .started (.sendResponse false next) ∈ x.1.conn.trace := by simp [ht]
      exact ⟨hsit.failure_last ht, fun ios y hy => failure_run hsit hmem hy⟩
  · intro io is srv hrun
    exact ⟨fun i srv' hstep => (TcpServer.Situated.of_run hrun).stores hstep,
      fun p b hp => TcpServer.file_kept_of_run hrun hp⟩

theorem loadFile_eq_some (fs : FileSystem) (p : Path) (b : Bytes) :
    loadFile fs p = some b ↔ fs p = some (.file b) := by
  unfold loadFile
  split <;> simp_all

theorem free_or_file_iff (o : Option Node) (b : Bytes) :
    (if o = none then some (.file b) else o) = some (.file b) ↔ o = none ∨ o = some (.file b) := by
  cases o <;> simp

/-- A completed upload is really stored exactly when each of its paths was free or
already held the same bytes: saveHorcruxes drops what saveFile returns, and SUCCESS has
gone out before. -/
theorem completed_upload_stored_iff {x : Session × FileSystem} {pre : CharArray 16}
    {ms : List Message} (ha : Accepts mConfig pre ms) (hst : Starts pre ms rest stream)
    (hout : fs kOutPath = some .directory) (hx : Session.Reachable mConfig stream fs x)
    (ht : .saved ∈ x.1.conn.trace) :
    (∀ m ∈ ms, loadFile x.2 (horcruxPath (announcement pre).mUuid m.head.mIndex) =
      some m.content) ↔
    ∀ m ∈ ms, fs (horcruxPath (announcement pre).mUuid m.head.mIndex) = none ∨
      fs (horcruxPath (announcement pre).mUuid m.head.mIndex) = some (.file m.content) := by
  obtain ⟨hr, _⟩ := ha.saved_eq hst (Situation.of_reachable hx) ht
  have huuid : x.1.conn.mPreRequestHeader.mUuid = (announcement pre).mUuid := by
    rw [hr.header]
    rfl
  have hall : x.1.conn.mCurrentRequestHorcruxes.all Option.isSome = true := by
    rw [hr.slots]
    exact ha.upload.slots_all_isSome.mpr ha.complete.1
  obtain ⟨cs, hcs⟩ := Lists.eq_map_some hall
  have hsaves := hr.saves ⟨huuid, hcs⟩ (hx.saved_fs ht)
  refine forall₂_congr fun m hm => ?_
  have hslot := ha.upload.slots_getElem? hm
  rw [← hr.slots, hcs, List.getElem?_map, Option.map_eq_some_iff] at hslot
  obtain ⟨hcx, hk, he⟩ := hslot
  have hm' := hsaves.own _ hcx hk
  cases he
  rw [UInt32.ofNat_toNat] at hm'
  simp only [hout, and_true] at hm'
  rw [loadFile_eq_some, hm', free_or_file_iff]

theorem completed_upload_stored_free : ∃ x,
    Session.Reachable {} sampleStream (outDirectory []) x ∧ .saved ∈ x.1.conn.trace ∧
      ∀ m ∈ [request 7 0 [104, 105]], loadFile x.2 (horcruxPath 7 m.head.mIndex) =
        some m.content := by
  have hx : Session.Reachable {} sampleStream (outDirectory []) _ :=
    ⟨[.ok, .ok, .ok, .ok, .ok], .cons rfl (.cons rfl (.cons rfl (.cons rfl (.cons rfl .nil))))⟩
  refine ⟨_, hx, by decide, ?_⟩
  have hst : Starts (preRequest 7 2 1) [request 7 0 [104, 105]] [] sampleStream := rfl
  exact (completed_upload_stored_iff sample_accepts hst rfl hx (by decide)).mpr (by decide)

/-- A file of the same name that is already there stays, and the upload is lost. -/
theorem completed_upload_lost : ¬ ∀ (mConfig : Config) (fs : FileSystem) (stream rest : Bytes)
    (pre : CharArray 16) (ms : List Message) (x : Session × FileSystem), Accepts mConfig pre ms →
    Starts pre ms rest stream → fs kOutPath = some .directory →
    Session.Reachable mConfig stream fs x → .saved ∈ x.1.conn.trace →
    ∀ m ∈ ms, loadFile x.2 (horcruxPath (announcement pre).mUuid m.head.mIndex) =
      some m.content := by
  intro h
  have hx : Session.Reachable {} sampleStream (outDirectory [(horcruxPath 7 0, [111])]) _ :=
    ⟨[.ok, .ok, .ok, .ok, .ok], .cons rfl (.cons rfl (.cons rfl (.cons rfl (.cons rfl .nil))))⟩
  have hl := h {} _ sampleStream [] _ _ _ sample_accepts rfl rfl hx (by decide) _
    List.mem_cons_self
  revert hl
  decide

end Horcrux
