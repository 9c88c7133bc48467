import Horcrux.Proofs.Asio
import Horcrux.Proofs.SaveAndLoad

namespace Horcrux
open Save Utils WriteOnce

/-- A file as its owner hands it in: an id, and the pieces in their order. -/
structure Parcel where
  uuid : UInt64
  pieces : List Bytes

/-- The saves that put a parcel away. -/
def Parcel.calls (p : Parcel) : List (Bytes × Path) :=
  p.pieces.mapIdx fun k b => (b, horcruxPath p.uuid (.ofNat k))

theorem Parcel.mem_calls {p : Parcel} : (b, path) ∈ p.calls ↔
    ∃ k, p.pieces[k]? = some b ∧ path = horcruxPath p.uuid (.ofNat k) := by
  rw [Parcel.calls, List.mem_iff_getElem?]
  simp only [List.getElem?_mapIdx, Option.map_eq_some_iff, Prod.mk.injEq]
  constructor
  · rintro ⟨k, c, hk, rfl, rfl⟩
    exact ⟨k, hk, rfl⟩
  · rintro ⟨k, hk, rfl⟩
    exact ⟨k, b, hk, rfl, rfl⟩

/-- The stream starts with an upload of the grammar, and the parcel is what it delivers. -/
def Carries (mConfig : Config) (stream : Bytes) (p : Parcel) : Prop :=
  ∃ pre ms rest, Accepts mConfig pre ms ∧ Starts pre ms rest stream ∧
    p.uuid = (announcement pre).mUuid ∧ p.pieces.length = ms.length ∧
    ∀ m ∈ ms, p.pieces[m.head.mIndex.toNat]? = some m.content

theorem Carries.length_lt {mConfig : Config} {stream : Bytes} {p : Parcel}
    (h : Carries mConfig stream p) : p.pieces.length < 2 ^ 32 := by
  obtain ⟨pre, ms, rest, ha, _, _, hl, _⟩ := h
  rw [hl, ha.count]
  exact (announcement pre).mNumHorcruxes.toNat_lt

/-- A stream carries one parcel at most. -/
theorem Carries.unique {mConfig : Config} {stream : Bytes} {p q : Parcel}
    (h : Carries mConfig stream p) (h' : Carries mConfig stream q) : p = q := by
  obtain ⟨pre, ms, rest, ha, hst, hu, hl, hk⟩ := h
  obtain ⟨pre', ms', rest', ha', hst', hu', hl', hk'⟩ := h'
  rw [ha.starts_iff.mp hst] at hst'
  obtain ⟨he, _⟩ := upload_unique
    (fun hc => ha.complete.1.trans (hc.trans ha'.complete.1.symm)) (ha'.starts_iff.mp hst')
  obtain rfl : pre = pre' := congrArg Upload.pre he
  obtain rfl : ms = ms' := congrArg Upload.messages he
  obtain ⟨u, bs⟩ := p
  obtain ⟨v, cs⟩ := q
  obtain rfl : u = v := hu.trans hu'.symm
  dsimp only at hl hl'
  have hpieces : bs = cs := by
    apply List.ext_getElem?
    intro k
    by_cases hlt : k < ms.length
    · have hmem : k ∈ ms.map fun m => m.head.mIndex.toNat := by
        rw [ha.indices.mem_iff, List.mem_range, ← ha.count]
        exact hlt
      obtain ⟨m, hm, rfl⟩ := List.mem_map.mp hmem
      rw [hk m hm, hk' m hm]
    · rw [List.getElem?_eq_none (by omega), List.getElem?_eq_none (by omega)]
  rw [hpieces]

/-- What the server is for: a store of files that takes whole parcels, one after the other
and one from each client. `filed` lists them, oldest first. -/
structure Archive (ι : Type) where
  store : Store Path Bytes
  filed : List (ι × Parcel) := []

namespace Archive
variable {ι : Type} {mConfig : Config} {incoming : ι → Bytes} {a b : Archive ι}

def file (a : Archive ι) (i : ι) (p : Parcel) : Archive ι :=
  ⟨(run Store.put a.store p.calls).2, a.filed ++ [(i, p)]⟩

def Step (mConfig : Config) (incoming : ι → Bytes) (i : ι) (a b : Archive ι) : Prop :=
  ∃ p, i ∉ a.filed.map Prod.fst ∧ Carries mConfig (incoming i) p ∧ b = a.file i p

/-- The saves of all parcels in the order of their filing. -/
def calls (a : Archive ι) : List (Bytes × Path) := a.filed.flatMap fun x => x.2.calls

/-- All that is in the archive came in with the parcels that were filed. -/
structure Consistent (mConfig : Config) (incoming : ι → Bytes) (start : Store Path Bytes)
    (a : Archive ι) : Prop where
  once : (a.filed.map Prod.fst).Nodup
  carried : ∀ x ∈ a.filed, Carries mConfig (incoming x.1) x.2
  store : a.store = (run Store.put start a.calls).2

theorem Consistent.step (h : Consistent mConfig incoming start a)
    (hs : Step mConfig incoming i a b) : Consistent mConfig incoming start b := by
  obtain ⟨p, hi, hp, rfl⟩ := hs
  refine ⟨?_, ?_, ?_⟩
  · rw [file, List.map_append, List.map_singleton, ← List.concat_eq_append]
    exact h.once.concat hi
  · intro x hx
    rcases List.mem_append.mp hx with hx | hx
    · exact h.carried x hx
    · rw [List.mem_singleton.mp hx]
      exact hp
  · simp only [file, calls, List.flatMap_append, List.flatMap_singleton, run_append]
    rw [h.store]
    rfl

theorem filed_prefix (h : Agents.Schedule (Step mConfig incoming) is a b) :
    a.filed <+: b.filed := by
  apply h.keeps (P := fun b => a.filed <+: b.filed)
  · intro i _ b c hb hs
    obtain ⟨p, _, _, rfl⟩ := hs
    exact hb.trans (List.prefix_append _ _)
  · exact List.prefix_refl _

theorem Consistent.of_run (h : Agents.Schedule (Step mConfig incoming) is ⟨start, []⟩ a) :
    Consistent mConfig incoming start a :=
  h.keeps (P := Consistent mConfig incoming start) (fun _ _ _ _ hc hs => hc.step hs)
    ⟨.nil, by simp, rfl⟩

end Archive

/-- The save loop makes one save after the other. -/
theorem saveLoop_eq_run (u : UInt64) (cs : List HorcruxData) (k : Nat) (fs : FileSystem) :
    saveLoop u (cs.map some) (.ofNat k) fs = some (run saveCall fs
      ((cs.map HorcruxData.mContent).mapIdx fun j b => (b, horcruxPath u (.ofNat (k + j))))).2 := by
  induction cs generalizing k fs with
  | nil => rfl
  | cons hcx cs ih =>
    have hnext : UInt32.ofNat k + 1 = UInt32.ofNat (k + 1) := by simp [UInt32.ofNat_add]
    simp only [List.map_cons, saveLoop, hnext, ih, List.mapIdx_cons, run, saveCall, Nat.add_zero,
      Nat.add_assoc, Nat.add_comm 1]

/-- saveHorcruxes puts away the parcel that the connection holds. -/
theorem TcpConnection.Holds.saveHorcruxes {c : TcpConnection} (h : c.Holds uuid cs)
    (fs : FileSystem) : c.saveHorcruxes fs =
      some (run saveCall fs (Parcel.mk uuid (cs.map HorcruxData.mContent)).calls).2 := by
  rw [TcpConnection.saveHorcruxes, h.1, h.2]
  simpa [Parcel.calls] using saveLoop_eq_run uuid cs 0 fs

/-- A complete upload delivers the contents of its slots. -/
theorem TcpConnection.Receives.carries {mConfig : Config} {c : TcpConnection} {u : Upload mConfig}
    (hr : c.Receives u) (h : u.Complete) (hh : c.Holds uuid cs) (hx : stream = u.bytes ++ rest) :
    Carries mConfig stream ⟨uuid, cs.map HorcruxData.mContent⟩ := by
  refine ⟨u.pre, u.messages, rest, h.accepts, by simpa [Starts, Upload.bytes] using hx, ?_, ?_, ?_⟩
  · rw [← hh.1, hr.header]
    rfl
  · rw [List.length_map, hr.length_holds hh, h.1]
  · intro m hm
    have hslot := u.slots_getElem? hm
    rw [← hr.slots, hh.2, List.getElem?_map, Option.map_eq_some_iff] at hslot
    obtain ⟨hcx, hk, he⟩ := hslot
    simp [hk, Option.some.inj he]

namespace TcpServer
variable {ι : Type} {mConfig : Config} {incoming : ι → Bytes} {io : Session → Io → Prop}
  {fs : FileSystem} {srv srv' : TcpServer ι} {a : Archive ι}

/-- The connection of client `i` has stored its horcruxes. -/
def HasSaved (srv : TcpServer ι) (i : ι) : Prop :=
  ∃ s, srv.connections i = some s ∧ .saved ∈ s.conn.trace

/-- The server stands for an archive: its files are those of the archive, and the clients
whose parcels are filed are those whose connections have saved. -/
structure Keeps (mConfig : Config) (incoming : ι → Bytes) (srv : TcpServer ι) (a : Archive ι) :
    Prop where
  situated : Situated mConfig incoming srv
  store : asStore srv.fs = a.store
  filed : ∀ i, i ∈ a.filed.map Prod.fst ↔ srv.HasSaved i

variable [DecidableEq ι]

/-- A step of client `i` is of no consequence to the other clients. -/
theorem Step.hasSaved_iff (hs : Step mConfig incoming io i srv srv') (hj : j ≠ i) :
    srv'.HasSaved j ↔ srv.HasSaved j := by
  rw [HasSaved, HasSaved, hs.frame hj]

/-- A client whose connection moves has not saved yet. -/
theorem Situated.not_hasSaved (h : Situated mConfig incoming srv)
    (hs : Step mConfig incoming io i srv srv') : ¬ srv.HasSaved i := by
  intro hsaved
  obtain ⟨s, hc, ht⟩ := hsaved
  obtain ⟨_, _, _, _, hp⟩ := (h i s hc).saved_upload ht
  cases hs with
  | accept hn => simp [hn] at hc
  | handler hc' _ hstep =>
    rw [hc] at hc'
    cases hc'
    rw [Session.complete_none hp] at hstep
    cases hstep

/-- A step of the server files one parcel, or is none of the archive's business. -/
theorem Situated.files (h : Situated mConfig incoming srv)
    (hs : Step mConfig incoming io i srv srv') :
    (srv'.fs = srv.fs ∧ ¬ srv'.HasSaved i) ∨ ∃ p, Carries mConfig (incoming i) p ∧
      srv'.fs = (run saveCall srv.fs p.calls).2 ∧ srv'.HasSaved i := by
  cases hs with
  | accept hn =>
    refine .inl ⟨rfl, ?_⟩
    intro hsaved
    obtain ⟨s, hc, ht⟩ := hsaved
    simp only [handleAccept, Function.update_self, Option.some.injEq] at hc
    subst hc
    simp at ht
  | handler hc _ hstep =>
    have hi := h i _ hc
    rcases Session.complete_fs hstep with ⟨outcome, hp, hsave, rfl⟩ | ⟨rfl, hp⟩
    · obtain ⟨u, hr, hcomplete, hx, _⟩ := hi.save_pending hp
      obtain ⟨cs, hcs⟩ := Lists.eq_map_some (hi.all_filled hp)
      have hholds : TcpConnection.Holds _ _ cs := ⟨rfl, hcs⟩
      rw [hholds.saveHorcruxes, Option.some.injEq] at hsave
      refine .inr ⟨_, hr.carries hcomplete hholds hx, hsave.symm, ?_⟩
      exact ⟨_, Function.update_self .., by simp⟩
    · refine .inl ⟨rfl, ?_⟩
      intro hsaved
      obtain ⟨s, hc', ht⟩ := hsaved
      simp only [Function.update_self, Option.some.injEq] at hc'
      subst hc'
      exact hi.not_saved_step hstep hp ht

/-- Seen from its files, the server is an archive. -/
theorem refines_archive : Agents.Refines (Step mConfig incoming io)
    (Archive.Step mConfig incoming) (Keeps mConfig incoming) := by
  intro i srv srv' a hk hs
  have hnew := hk.situated.not_hasSaved hs
  rcases hk.situated.files hs with ⟨hfs, hn⟩ | ⟨p, hp, hfs, hsaved⟩
  · refine ⟨[], a, .nil, hk.situated.step hs, by rw [hfs, hk.store], fun j => ?_⟩
    by_cases hj : j = i
    · subst hj
      rw [hk.filed]
      exact iff_of_false hnew hn
    · rw [hk.filed, hs.hasSaved_iff hj]
  · refine ⟨[i], a.file i p, .single ⟨p, ?_, hp, rfl⟩, hk.situated.step hs, ?_, fun j => ?_⟩
    · rwa [hk.filed]
    · rw [hfs, Archive.file, ← hk.store, run_refines saveCall_refines]
    · rw [Archive.file, List.map_append, List.mem_append, hk.filed]
      by_cases hj : j = i
      · subst hj
        simp [hsaved]
      · simp [hs.hasSaved_iff hj, hj]

omit [DecidableEq ι] in
theorem listening_keeps (fs : FileSystem) :
    Keeps mConfig incoming (listening fs) ⟨asStore fs, []⟩ := by
  refine ⟨fun _ _ hi => (by cases hi), rfl, fun i => ?_⟩
  simp [HasSaved, listening]

end TcpServer

namespace AsioServer
variable {ι : Type} {mConfig : Config} {incoming : ι → Bytes} {fs : FileSystem}
  {os : AsioSession → List Asio.SysResult → Prop} {srv : AsioServer ι} {acts : List (Act ι)}

def HasSaved (srv : AsioServer ι) (i : ι) : Prop :=
  ∃ x, srv.connections i = some x ∧ .saved ∈ x.conn.trace

theorem Matches.hasSaved_iff {t : TcpServer ι} (h : Matches part srv t) (i : ι) :
    srv.HasSaved i ↔ t.HasSaved i := by
  have hrel := h.connections i
  unfold HasSaved TcpServer.HasSaved
  generalize srv.connections i = x at hrel ⊢
  generalize t.connections i = s at hrel ⊢
  cases hrel with
  | none => simp
  | some hl => simp [hl.matched.same.trace]

/-- A serial history of the server: one parcel of each client that has saved, in an order in
which filing them whole, one after the other, leaves these very files. -/
structure Serial (mConfig : Config) (incoming : ι → Bytes) (fs : FileSystem)
    (filed : List (ι × Parcel)) (srv : AsioServer ι) : Prop where
  once : (filed.map Prod.fst).Nodup
  saved : ∀ i, i ∈ filed.map Prod.fst ↔ srv.HasSaved i
  carried : ∀ x ∈ filed, Carries mConfig (incoming x.1) x.2
  files : asStore srv.fs = (run Store.put (asStore fs) (filed.flatMap fun x => x.2.calls)).2

/-- The server above the system calls stands for an archive. -/
def Keeps (mConfig : Config) (incoming : ι → Bytes) (srv : AsioServer ι) (a : Archive ι) : Prop :=
  ∃ t, Matches (fun p outcome => p <+: response outcome) srv t ∧ t.Keeps mConfig incoming a

theorem Keeps.serial {a : Archive ι} (hk : srv.Keeps mConfig incoming a)
    (ha : a.Consistent mConfig incoming (asStore fs)) : Serial mConfig incoming fs a.filed srv := by
  obtain ⟨t, hm, hk⟩ := hk
  refine ⟨ha.once, fun i => ?_, ha.carried, ?_⟩
  · rw [hk.filed, hm.hasSaved_iff]
  · rw [hm.fs, hk.store, ha.store]
    rfl

theorem listening_keeps (fs : FileSystem) :
    (listening fs : AsioServer ι).Keeps mConfig incoming ⟨asStore fs, []⟩ :=
  ⟨_, listening_matches _ fs, TcpServer.listening_keeps fs⟩

/-- The paths that a serial history saves to are those of the clients that have saved. -/
theorem Serial.path_iff (h : Serial mConfig incoming fs filed srv) (path : Path) :
    path ∈ (filed.flatMap fun x => x.2.calls).map Prod.snd ↔
      ∃ i p k, srv.HasSaved i ∧ Carries mConfig (incoming i) p ∧ k < p.pieces.length ∧
        path = horcruxPath p.uuid (.ofNat k) := by
  constructor
  · intro hmem
    obtain ⟨call, hcall, rfl⟩ := List.mem_map.mp hmem
    obtain ⟨x, hx, hcall⟩ := List.mem_flatMap.mp hcall
    obtain ⟨k, hk, hpath⟩ := Parcel.mem_calls.mp hcall
    exact ⟨x.1, x.2, k, (h.saved _).mp (List.mem_map_of_mem hx), h.carried x hx,
      (List.getElem?_eq_some_iff.mp hk).1, hpath⟩
  · rintro ⟨i, p, k, hsaved, hp, hk, rfl⟩
    obtain ⟨x, hx, rfl⟩ := List.mem_map.mp ((h.saved i).mpr hsaved)
    obtain rfl := hp.unique (h.carried x hx)
    refine List.mem_map.mpr ⟨(x.2.pieces[k], _), List.mem_flatMap.mpr ⟨x, hx, ?_⟩, rfl⟩
    exact Parcel.mem_calls.mpr ⟨k, List.getElem?_eq_getElem hk, rfl⟩

theorem Serial.loadFile_eq (h : Serial mConfig incoming fs filed srv) (path : Path) :
    loadFile srv.fs path =
      (run Store.put (asStore fs) (filed.flatMap fun x => x.2.calls)).2.get path := by
  rw [← h.files]
  rfl

theorem Serial.isSome_iff (h : Serial mConfig incoming fs filed srv) (path : Path) :
    (loadFile srv.fs path).isSome ↔ (loadFile fs path).isSome ∨ opensForWriting fs path = true ∧
      ∃ i p k, srv.HasSaved i ∧ Carries mConfig (incoming i) p ∧ k < p.pieces.length ∧
        path = horcruxPath p.uuid (.ofNat k) := by
  rw [h.loadFile_eq, isSome_get_run, h.path_iff]
  rfl

/-- A file that is new is a piece of a client that has saved. -/
theorem Serial.content {path : Path} {content : Bytes} (h : Serial mConfig incoming fs filed srv)
    (hc : loadFile srv.fs path = some content) : loadFile fs path = some content ∨
      loadFile fs path = none ∧ ∃ i p k, srv.HasSaved i ∧ Carries mConfig (incoming i) p ∧
        p.pieces[k]? = some content ∧ path = horcruxPath p.uuid (.ofNat k) := by
  rw [h.loadFile_eq] at hc
  refine (mem_of_get_run _ hc).imp_right fun hnew => ⟨hnew.1, ?_⟩
  obtain ⟨x, hx, hcall⟩ := List.mem_flatMap.mp hnew.2
  obtain ⟨k, hk, hpath⟩ := Parcel.mem_calls.mp hcall
  exact ⟨x.1, x.2, k, (h.saved _).mp (List.mem_map_of_mem hx), h.carried x hx, hk, hpath⟩

variable [DecidableEq ι]

theorem refines_archive : Agents.Refines (Step mConfig incoming os)
    (Archive.Step mConfig incoming) (Keeps mConfig incoming) :=
  refines_any.trans TcpServer.refines_archive

theorem exists_serial (h : Agents.Schedule (Step mConfig incoming os) acts (listening fs) srv) :
    ∃ filed, Serial mConfig incoming fs filed srv := by
  obtain ⟨is, a, ha, hk⟩ := refines_archive.run (listening_keeps fs) h
  exact ⟨a.filed, hk.serial (.of_run ha)⟩

/-- However the handlers of the connections interleave and however their streams are cut, the
uploads take effect as if they had come whole and one after the other, and the order in
which they did so never changes any more. -/
theorem uploads_serialize
    (h : Agents.Schedule (Step mConfig incoming os) acts (listening fs) srv) :
    ∃ filed, Serial mConfig incoming fs filed srv ∧
      ∀ acts' srv', Agents.Schedule (Step mConfig incoming os) acts' srv srv' →
        ∃ more, Serial mConfig incoming fs (filed ++ more) srv' := by
  obtain ⟨is, a, ha, hk⟩ := refines_archive.run (listening_keeps fs) h
  refine ⟨a.filed, hk.serial (.of_run ha), ?_⟩
  intro acts' srv' h'
  obtain ⟨js, b, hb, hk'⟩ := refines_archive.run hk h'
  obtain ⟨more, hmore⟩ := Archive.filed_prefix hb
  exact ⟨more, hmore ▸ hk'.serial (.of_run (ha.append hb))⟩

/-- An upload whose request header comes in two pieces. -/
def sampleActs : List (Act Unit) :=
  [.accept () false, .perform () [.bytes 16], .perform () [.bytes 7], .perform () [.bytes 20],
    .perform () [.bytes 4], .perform () [.bytes 2], .perform () [.bytes 7]]

theorem sample_run : ∃ srv x, srv.connections () = some x ∧ x.conn.trace.getLast? = some .saved ∧
    x.conn.pending = none ∧ loadFile srv.fs (horcruxPath 7 0) = some [104, 105] ∧
    Agents.Schedule (Step {} (fun _ => sampleStream) AsioSession.Orderly) sampleActs
      (listening (outDirectory [])) srv :=
  ⟨_, _, rfl, rfl, rfl, rfl, .cons (.accept rfl) (.cons (.perform rfl (orderly_bytes _ _) rfl)
    (.cons (.perform rfl (orderly_bytes _ _) rfl) (.cons (.perform rfl (orderly_bytes _ _) rfl)
      (.cons (.perform rfl (orderly_bytes _ _) rfl) (.cons (.perform rfl (orderly_bytes _ _) rfl)
        (.cons (.perform rfl (orderly_bytes _ _) rfl) .nil))))))⟩

theorem sample_carries : Carries {} sampleStream ⟨7, [[104, 105]]⟩ :=
  ⟨_, _, [], sample_accepts, by simp [Starts, sampleStream], rfl, rfl, by decide⟩

/-- Two clients: the sample upload, and one of two pieces, the second of which comes first. -/
def twoStreams : Bool → Bytes
  | false => sampleStream
  | true => (preRequest 8 3 2).val ++ ((request 8 1 [3]).bytes ++ (request 8 0 [1, 2]).bytes)

def twoParcels : Bool → Parcel
  | false => ⟨7, [[104, 105]]⟩
  | true => ⟨8, [[1, 2], [3]]⟩

theorem twoStreams_carries (i : Bool) : Carries {} (twoStreams i) (twoParcels i) := by
  cases i with
  | false => exact sample_carries
  | true =>
    have ha : Accepts {} (preRequest 8 3 2) [request 8 1 [3], request 8 0 [1, 2]] :=
      ⟨by decide, by decide, by decide, by decide, by decide, by decide, by decide⟩
    exact ⟨_, _, [], ha, by simp [Starts, twoStreams], rfl, rfl, by decide⟩

/-- Their handlers run in turn. The first client has saved when the second is at its last
piece. -/
def firstActs : List (Act Bool) :=
  [.accept false false, .accept true false, .perform true [.bytes 10], .perform false [.bytes 16],
    .perform true [.bytes 6], .perform true [.bytes 7], .perform false [.bytes 7],
    .perform false [.bytes 24], .perform true [.bytes 24], .perform false [.bytes 2],
    .perform true [.bytes 1], .perform false [.bytes 7]]

def laterActs : List (Act Bool) :=
  [.perform true [.bytes 7], .perform true [.bytes 20], .perform true [.bytes 4],
    .perform true [.bytes 2], .perform true [.bytes 7]]

theorem two_run : ∃ srv srv' x x' y,
    Agents.Schedule (Step {} twoStreams AsioSession.Orderly) firstActs
      (listening (outDirectory [])) srv ∧
    Agents.Schedule (Step {} twoStreams AsioSession.Orderly) laterActs srv srv' ∧
    srv.connections false = some x ∧ x.conn.trace.getLast? = some .saved ∧
    srv'.connections false = some x' ∧ x'.conn.pending = none ∧
    srv'.connections true = some y ∧ y.conn.trace.getLast? = some .saved ∧
    y.conn.pending = none := by
  have hbytes : ∀ {srv : AsioServer Bool} {i x x' fs'} n, srv.connections i = some x →
      x.perform [.bytes (n + 1)] srv.fs = .next (x', fs') →
      Step {} twoStreams AsioSession.Orderly (.perform i [.bytes (n + 1)]) srv
        ⟨fs', Function.update srv.connections i (some x')⟩ :=
    fun n hx h => .perform hx (orderly_bytes _ n) h
  refine ⟨_, _, _, _, _, .cons (.accept rfl) (.cons (.accept rfl) (.cons (hbytes _ rfl rfl)
    (.cons (hbytes _ rfl rfl) (.cons (hbytes _ rfl rfl) (.cons (hbytes _ rfl rfl)
    (.cons (hbytes _ rfl rfl) (.cons (hbytes _ rfl rfl) (.cons (hbytes _ rfl rfl)
    (.cons (hbytes _ rfl rfl) (.cons (hbytes _ rfl rfl) (.cons (hbytes _ rfl rfl) .nil))))))))))),
    .cons (hbytes _ rfl rfl) (.cons (hbytes _ rfl rfl) (.cons (hbytes _ rfl rfl)
    (.cons (hbytes _ rfl rfl) (.cons (hbytes _ rfl rfl) .nil)))), rfl, rfl, rfl, rfl, rfl, rfl, rfl⟩

theorem uploads_serialize_sample : ∃ (srv srv' : AsioServer Bool)
    (filed more : List (Bool × Parcel)), srv.HasSaved false ∧ srv'.HasSaved true ∧
      Serial {} twoStreams (outDirectory []) filed srv ∧
      Serial {} twoStreams (outDirectory []) (filed ++ more) srv' := by
  obtain ⟨srv, srv', x, _, y, h, h', hx, hsaved, _, _, hy, hsaved', _⟩ := two_run
  obtain ⟨filed, hserial, hlater⟩ := uploads_serialize h
  obtain ⟨more, hserial'⟩ := hlater _ _ h'
  exact ⟨srv, srv', filed, more, ⟨x, hx, List.mem_of_getLast? hsaved⟩,
    ⟨y, hy, List.mem_of_getLast? hsaved'⟩, hserial, hserial'⟩

/-- Where the files come from. A path has a file in the end exactly if it had one before, or
if it could be opened and a client that has saved uploaded a piece for it; and then the
file is what it was before, or such a piece. -/
theorem file_provenance
    (h : Agents.Schedule (Step mConfig incoming os) acts (listening fs) srv) (path : Path) :
    ((loadFile srv.fs path).isSome ↔ (loadFile fs path).isSome ∨ opensForWriting fs path = true ∧
      ∃ i p k, srv.HasSaved i ∧ Carries mConfig (incoming i) p ∧ k < p.pieces.length ∧
        path = horcruxPath p.uuid (.ofNat k)) ∧
    ∀ content, loadFile srv.fs path = some content → loadFile fs path = some content ∨
      loadFile fs path = none ∧ ∃ i p k, srv.HasSaved i ∧ Carries mConfig (incoming i) p ∧
        p.pieces[k]? = some content ∧ path = horcruxPath p.uuid (.ofNat k) := by
  obtain ⟨filed, hserial⟩ := exists_serial h
  exact ⟨hserial.isSome_iff path, fun content => hserial.content⟩

theorem file_provenance_sample : ∃ srv : AsioServer Unit,
    loadFile srv.fs (horcruxPath 7 0) = some [104, 105] ∧
    ∃ p k, Carries {} sampleStream p ∧ p.pieces[k]? = some [104, 105] ∧
      horcruxPath 7 0 = horcruxPath p.uuid (.ofNat k) := by
  obtain ⟨srv, x, _, _, _, hload, h⟩ := sample_run
  refine ⟨srv, hload, ?_⟩
  rcases (file_provenance h _).2 _ hload with hbefore | ⟨_, _, p, k, _, hp, hk, hpath⟩
  · exact absurd hbefore (by decide)
  · exact ⟨p, k, hp, hk, hpath⟩

end AsioServer
end Horcrux
