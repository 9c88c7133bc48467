import Horcrux.Cluster
import Horcrux.Proofs.History
import Mathlib.Data.Fintype.Basic

namespace Horcrux
open Save Utils

/-- Bytes that arrive later belong to the stream. -/
theorem Situation.more {s : Session} (h : Situation mConfig stream s) (bs : Bytes) :
    Situation mConfig (stream ++ bs) ⟨s.conn, s.unread ++ bs⟩ := by
  cases h with
  | fresh => exact .fresh
  | lost hs hp ht => exact .lost hs hp ht
  | refused pre hx hs hp ht => exact .refused pre (by rw [hx, List.append_assoc]) hs hp ht
  | answering u hr hn hx hp ht =>
    exact .answering u hr hn (by rw [hx, List.append_assoc]) hp ht
  | listening u hr hn hx hp ht =>
    exact .listening u hr hn (by rw [hx, List.append_assoc]) hp ht
  | reading u header hr ha hx hh hb hp ht =>
    exact .reading u header hr ha (by simp [hx]) hh hb hp ht
  | cut u hr hn hp hx ht =>
    obtain ⟨rest, hx⟩ := hx
    exact .cut u hr hn hp ⟨rest ++ bs, by rw [hx, List.append_assoc]⟩ ht
  | rejected u header hr hn ha hx hp ht =>
    exact .rejected u header hr hn ha (by simp [hx]) hp ht
  | complete u hr hc hx hp ht => exact .complete u hr hc (by rw [hx, List.append_assoc]) hp ht
  | saved u hr hc hx hp ht => exact .saved u hr hc (by rw [hx, List.append_assoc]) hp ht

namespace Link
variable {l l' : Link} {fs fs' : FileSystem} {a : Agent} {mConfig : Config} {pre : CharArray 16}

@[simp] theorem link_network (l : Link) (fs : FileSystem) : (l.network fs).link = l := rfl

@[simp] theorem network_link (n : Network) : n.link.network n.fs = n := rfl

/-- What the agent does to the files. -/
def effect (a : Agent) (l : Link) : FileSystem → FileSystem :=
  match a with
  | .server => l.session.effect
  | _ => id

/-- Two networks that agree on the link are one when they are given the same files. -/
theorem network_congr {n : Network} (h : l'.network fs' = n) (g : FileSystem) :
    some (n.link.network g) = some (l'.network g) := by
  rw [← h, link_network]

/-- The files have no part in what happens on the link. -/
theorem step_any_fs (h : Step a (l, fs) (l', fs')) (g : FileSystem) :
    Step a (l, g) (l', l.effect a g) := by
  cases a with
  | client =>
    rcases Network.clientStep_cases h with
      ⟨b, hb, hm⟩ | ⟨hb, hr, hl, hm⟩ | ⟨hb, hr, ha, ht, hp, hm⟩
    · exact (Network.clientStep_write (n := l.network g) hb).trans (network_congr hm g)
    · exact (Network.clientStep_read (n := l.network g) hb hr hl).trans (network_congr hm g)
    · exact (Network.clientStep_closed (n := l.network g) hb hr ha ht hp).trans
        (network_congr hm g)
  | server =>
    rcases Network.serverStep_cases h with
      ⟨s, f, hr, hc, hm⟩ | ⟨s, f, k, hk, hl, hd, he, hc, hm⟩
    · exact (Network.serverStep_ready (n := l.network g) hr (Session.complete_any_fs hc g)).trans
        (network_congr hm (l.session.effect g))
    · exact (Network.serverStep_hopeless (n := l.network g) hk hl hd he
        (Session.complete_any_fs hc g)).trans (network_congr hm (l.session.effect g))
  | transmit =>
    obtain ⟨outcome, next, b, bs, hp, hu, hm⟩ := Network.transmitStep_cases h
    exact (Network.transmitStep_eq (n := l.network g) hp hu).trans (network_congr hm g)
  | deliverToServer =>
    obtain ⟨b, bs, ht, hm⟩ := Network.deliverToServerStep_cases h
    exact (Network.deliverToServerStep_eq (n := l.network g) ht).trans (network_congr hm g)
  | deliverToClient =>
    obtain ⟨b, bs, ht, hm⟩ := Network.deliverToClientStep_cases h
    exact (Network.deliverToClientStep_eq (n := l.network g) ht).trans (network_congr hm g)

theorem step_fs (h : Step a (l, fs) (l', fs')) : fs' = l.effect a fs := by
  have hany := step_any_fs h fs
  have he := Option.some.inj (Eq.trans h.symm hany)
  exact congrArg Network.fs he

theorem schedule_of_network (h : Agents.Schedule Network.Step as n m) :
    Agents.Schedule Step as (n.link, n.fs) (m.link, m.fs) := by
  induction h with
  | nil => exact .nil
  | @cons a n m _ _ hs _ ih =>
    have hstep : Step a (n.link, n.fs) (m.link, m.fs) := hs
    exact .cons hstep ih

/-- The client has announced `pre` before anything else, or has nothing sent yet and will
send that first, if anything. -/
def Announces (mConfig : Config) (pre : CharArray 16) (l : Link) : Prop :=
  ∃ stream, Situation mConfig stream l.session ∧ (pre.val <+: stream ++ l.toServer ∨
    stream ++ l.toServer = [] ∧ (l.client.phase = .done ∨
      l.client.phase = .sendPreRequest ∧
        serializeHeader l.client.preRequestHeader noPadding = pre))

theorem Announces.step (h : Announces mConfig pre l) (hs : Step a (l, fs) (l', fs')) :
    Announces mConfig pre l' := by
  obtain ⟨stream, hsit, hsent⟩ := h
  cases a with
  | client =>
    rcases Network.clientStep_cases hs with
      ⟨b, hb, hm⟩ | ⟨hb, hr, hl, hm⟩ | ⟨hb, hr, ha, ht, hp, hm⟩
    · obtain rfl : l' = _ := congrArg Network.link hm
      refine ⟨stream, hsit, .inl ?_⟩
      rcases hsent with hpre | ⟨hnone, hdone | ⟨hphase, hpre⟩⟩
      · exact hpre.trans ⟨b, by simp [Network.link, Link.network]⟩
      · simp [Link.network, ClientMain.buffer, hdone] at hb
      · have hb' : b = pre.val := by
          simpa [Link.network, ClientMain.buffer, hphase, hpre] using hb.symm
        refine ⟨[], ?_⟩
        simp only [Network.link, Link.network, List.append_nil, ← List.append_assoc, hnone, hb']
        rfl
    · obtain rfl : l' = _ := congrArg Network.link hm
      refine ⟨stream, hsit, .inl (hsent.resolve_right ?_)⟩
      rintro ⟨_, hdone | ⟨hphase, _⟩⟩
      · simp [Link.network, ClientMain.reading, hdone] at hr
      · simp [Link.network, ClientMain.reading, hphase] at hr
    · obtain rfl : l' = _ := congrArg Network.link hm
      refine ⟨stream, hsit, .inl (hsent.resolve_right ?_)⟩
      rintro ⟨_, hdone | ⟨hphase, _⟩⟩
      · simp [Link.network, ClientMain.reading, hdone] at hr
      · simp [Link.network, ClientMain.reading, hphase] at hr
  | server =>
    rcases Network.serverStep_cases hs with ⟨s, f, _, hc, hm⟩ | ⟨s, f, _, _, _, _, _, hc, hm⟩
    · obtain rfl : l' = _ := congrArg Network.link hm
      exact ⟨stream, hsit.step hc, hsent⟩
    · obtain rfl : l' = _ := congrArg Network.link hm
      exact ⟨stream, hsit.step hc, hsent⟩
  | transmit =>
    obtain ⟨_, _, b, bs, _, _, hm⟩ := Network.transmitStep_cases hs
    obtain rfl : l' = _ := congrArg Network.link hm
    exact ⟨stream, hsit, hsent⟩
  | deliverToServer =>
    obtain ⟨b, bs, ht, hm⟩ := Network.deliverToServerStep_cases hs
    obtain rfl : l' = _ := congrArg Network.link hm
    have hbytes : stream ++ l.toServer = stream ++ [b] ++ bs := by
      rw [show l.toServer = b :: bs from ht, List.append_assoc, List.singleton_append]
    rw [hbytes] at hsent
    exact ⟨stream ++ [b], hsit.more [b], hsent⟩
  | deliverToClient =>
    obtain ⟨b, bs, _, hm⟩ := Network.deliverToClientStep_cases hs
    obtain rfl : l' = _ := congrArg Network.link hm
    exact ⟨stream, hsit, hsent⟩

/-- The link on its own is a network. -/
theorem independent (mConfig : Config) (pre : CharArray 16) :
    Agents.Independent Step fun x => Announces mConfig pre x.1 where
  keeps h hs := h.step hs
  det _ h h' := by
    have he := Network.independent.det trivial h h'
    exact Prod.ext (congrArg Network.link he) (congrArg Network.fs he)
  commute _ hne h h' := by
    obtain ⟨n, hn, hn'⟩ := Network.independent.commute trivial hne h h'
    exact ⟨(n.link, n.fs), hn, hn'⟩

/-- What an agent does to the files is nothing, or a save under the id that the client has
announced. -/
theorem Announces.effect (h : Announces mConfig pre l) (a : Agent) :
    (∀ fs, l.effect a fs = fs) ∨
      ∃ cs, ∀ fs, Saves fs (l.effect a fs) (announcement pre).mUuid cs := by
  cases a with
  | client | transmit | deliverToServer | deliverToClient => exact .inl fun _ => rfl
  | server =>
    obtain ⟨stream, hsit, hsent⟩ := h
    refine hsit.effect_owned.imp_right ?_
    intro hown
    obtain ⟨pre', rest, cs, rfl, hsaves⟩ := hown
    have hpre : pre = pre' := by
      rcases hsent with ⟨more, hpre⟩ | ⟨hnone, _⟩
      · rw [List.append_assoc] at hpre
        exact Subtype.ext (List.append_inj hpre (pre.property.trans pre'.property.symm)).1
      · have hlen := congrArg List.length hnone
        simp [pre'.property] at hlen
    exact ⟨cs, hpre ▸ hsaves⟩

end Link

namespace Cluster
variable {ι : Type} {mConfig : Config} {pre : ι → CharArray 16}

/-- Clients with different ids do not get in each other's way. -/
theorem detached (hd : ∀ i j, i ≠ j → (announcement (pre i)).mUuid ≠ (announcement (pre j)).mUuid) :
    Agents.Shared.Detached (fun _ : ι => Link.Step) (fun i => Link.Announces mConfig (pre i))
      (fun _ a l => l.effect a) where
  shared := Link.step_fs
  any := Link.step_any_fs
  commute := by
    intro i j l m b a hne hl hm fs
    rcases hl.effect a with hF | ⟨cs, hF⟩
    · rw [hF, hF]
    · rcases hm.effect b with hG | ⟨ds, hG⟩
      · rw [hG, hG]
      · exact Saves.commute (hd i j hne) (hF fs) (hG fs) (hG _) (hF _)

theorem independent [DecidableEq ι] (hd : ∀ i j, i ≠ j →
      (announcement (pre i)).mUuid ≠ (announcement (pre j)).mUuid) :
    Agents.Independent Step fun c : Cluster ι => ∀ i, Link.Announces mConfig (pre i) (c.own i) :=
  Agents.Shared.independent (fun i => Link.independent mConfig (pre i)) (detached hd)

end Cluster

section Lone
variable {mConfig : Config} {uuid : UInt64} {padding : UInt32 → CharArray 4}
  {hs : List HorcruxData}

/-- The server accepts the announcement that the client makes of its horcruxes. -/
def Admissible (mConfig : Config) (hs : List HorcruxData) : Prop :=
  hs.length ≤ mConfig.mMaxNumHorcruxAccepted.toNat ∧
    aggregate hs % 2 ^ 32 ≤ mConfig.mMaxTotalSizeAccepted.toNat

instance (mConfig : Config) (hs : List HorcruxData) : Decidable (Admissible mConfig hs) :=
  inferInstanceAs (Decidable (_ ∧ _))

/-- What the server stores of the client's horcruxes. -/
def keeps (mConfig : Config) (hs : List HorcruxData) : List HorcruxData :=
  if Admissible mConfig hs then hs.map stored else []

/-- What the server lets the client know. -/
def answers (mConfig : Config) (hs : List HorcruxData) : List Bool :=
  if hs = [] then []
  else if Admissible mConfig hs then List.replicate (hs.length + 1) true
  else [false]

theorem Saves.nothing (fs : FileSystem) (uuid : UInt64) : Saves fs fs uuid [] :=
  ⟨by simp, fun _ _ => rfl⟩

/-- A client that is alone with the server. -/
theorem lone_run (mConfig : Config) (uuid : UInt64) (padding : UInt32 → CharArray 4)
    (fs : FileSystem) (hn : hs.length < 2 ^ 32)
    (hfit : ∀ hcx ∈ hs.dropLast, hcx.mContent.length < 2 ^ 32) :
    ∃ as n, Agents.Schedule Network.Step as
        (.connected (.withHorcruxes uuid padding hs) mConfig fs) n ∧ n.Finished ∧
      n.client.verdicts = answers mConfig hs ∧ Saves fs n.fs uuid (keeps mConfig hs) := by
  by_cases hne : hs = []
  · subst hne
    obtain ⟨n, hrun, hf, hc, hfs⟩ := silent_run (.withHorcruxes uuid padding []) mConfig fs rfl
    refine ⟨_, n, hrun, hf, by rw [hc]; rfl, ?_⟩
    rw [hfs]
    simpa [keeps] using Saves.nothing fs uuid
  · by_cases ha : Admissible mConfig hs
    · obtain ⟨as, n, hrun, hf, hver, hsaves⟩ :=
        client_run mConfig uuid padding fs hne hn ha.1 ha.2 hfit
      refine ⟨as, n, hrun, hf, ?_, ?_⟩
      · rw [hver, answers, if_neg hne, if_pos ha]
      · rwa [keeps, if_pos ha]
    · have hl : mConfig.mMaxNumHorcruxAccepted.toNat < hs.length ∨
          mConfig.mMaxTotalSizeAccepted.toNat < aggregate hs % 2 ^ 32 := by
        rw [Admissible] at ha
        omega
      obtain ⟨as, n, hrun, hf, hver, _, hfs⟩ :=
        refused_client_run mConfig uuid padding fs hne hn hl
      refine ⟨as, n, hrun, hf, ?_, ?_⟩
      · rw [hver, answers, if_neg hne, if_neg ha]
      · rw [hfs, keeps, if_neg ha]
        exact .nothing fs uuid

end Lone

/-- Between two filesystems, each client of `is` has stored its own horcruxes where their
paths were free, and nothing else has changed. -/
structure SavesAll {ι : Type} (fs fs' : FileSystem) (uuid : ι → UInt64)
    (cs : ι → List HorcruxData) (is : List ι) : Prop where
  own : ∀ i ∈ is, ∀ (k : Nat) hcx, (cs i)[k]? = some hcx →
    fs' (horcruxPath (uuid i) (.ofNat k)) =
      if fs (horcruxPath (uuid i) (.ofNat k)) = none ∧ fs kOutPath = some .directory then
        some (.file hcx.mContent) else fs (horcruxPath (uuid i) (.ofNat k))
  other : ∀ q, (∀ i ∈ is, ∀ k < (cs i).length, q ≠ horcruxPath (uuid i) (.ofNat k)) →
    fs' q = fs q

theorem SavesAll.cons {ι : Type} {uuid : ι → UInt64} {cs : ι → List HorcruxData} {is : List ι}
    {i : ι} (h : SavesAll fs g uuid cs is) (hd : Function.Injective uuid) (hi : i ∉ is)
    (hs : Saves g g' (uuid i) (cs i)) : SavesAll fs g' uuid cs (i :: is) where
  own := by
    intro j hj k hcx hk
    have hout : g kOutPath = fs kOutPath := h.other _ fun _ _ _ _ => horcruxPath_ne_out _ _
    rcases List.mem_cons.mp hj with rfl | hj
    · have hpath : g (horcruxPath (uuid j) (.ofNat k)) = fs (horcruxPath (uuid j) (.ofNat k)) := by
        apply h.other
        intro j' hj' k' _ he
        exact hi (hd (horcruxPath_inj he).1 ▸ hj')
      rw [hs.own k hcx hk, hpath, hout]
    · rw [hs.other, h.own j hj k hcx hk]
      intro k' _ he
      exact hi (hd (horcruxPath_inj he).1 ▸ hj)
  other := by
    intro q hq
    rw [hs.other q (hq i List.mem_cons_self),
      h.other q fun j hj => hq j (List.mem_cons_of_mem _ hj)]

/-- The link is at rest. -/
def Link.Finished (l : Link) : Prop :=
  l.client.phase = .done ∧ l.session.conn.pending = none ∧ l.toServer = [] ∧ l.toClient = []

namespace Cluster
variable {ι : Type} [DecidableEq ι] {mConfig : Config} {uuid : ι → UInt64}
  {padding : ι → UInt32 → CharArray 4} {hs : ι → List HorcruxData} {fs : FileSystem}
  {c : Cluster ι}

/-- All clients are started, each with its horcruxes and under its id. -/
def start (mConfig : Config) (uuid : ι → UInt64) (padding : ι → UInt32 → CharArray 4)
    (hs : ι → List HorcruxData) (fs : FileSystem) : Cluster ι :=
  .connected (fun i => .withHorcruxes (uuid i) (padding i) (hs i)) mConfig fs

theorem stuck_of_finished (h : ∀ i, (c.own i).Finished) : Agents.Stuck Step c := by
  intro x d hs
  obtain ⟨y, hy, _⟩ := hs
  exact Network.Finished.stuck (n := (c.own x.1).network c.shared) (h x.1) _ _ hy

omit [DecidableEq ι] in
theorem start_announces (i : ι) : Link.Announces mConfig
    (serializeHeader (PreRequestHeader.fromHorcruxes (uuid i) (hs i)) noPadding)
    ((start mConfig uuid padding hs fs).own i) := by
  refine ⟨[], .fresh, .inr ⟨rfl, ?_⟩⟩
  by_cases hne : hs i = []
  · simp [start, connected, Link.connected, ClientMain.withHorcruxes, hne]
  · simp [start, connected, Link.connected, ClientMain.withHorcruxes, hne]

/-- The clients of `is` come one after the other, each when the one before is through. -/
theorem exists_run (mConfig : Config) (padding : ι → UInt32 → CharArray 4)
    (hd : Function.Injective uuid) (hn : ∀ i, (hs i).length < 2 ^ 32)
    (hfit : ∀ i, ∀ hcx ∈ (hs i).dropLast, hcx.mContent.length < 2 ^ 32) (fs : FileSystem)
    (is : List ι) (hnd : is.Nodup) :
    ∃ as c, Agents.Schedule Step as (start mConfig uuid padding hs fs) c ∧
      (∀ i ∈ is, (c.own i).Finished ∧ (c.own i).client.verdicts = answers mConfig (hs i)) ∧
      (∀ i ∉ is, c.own i = (start mConfig uuid padding hs fs).own i) ∧
      SavesAll fs c.shared uuid (fun i => keeps mConfig (hs i)) is := by
  induction is with
  | nil => exact ⟨[], _, .nil, by simp, fun _ _ => rfl, by simp, fun _ _ => rfl⟩
  | cons i is ih =>
    obtain ⟨hi, hnd⟩ := List.nodup_cons.mp hnd
    obtain ⟨as, c, hrun, hdone, hrest, hsaves⟩ := ih hnd
    obtain ⟨bs, n, hlone, hf, hver, hsave⟩ :=
      lone_run mConfig (uuid i) (padding i) c.shared (hn i) (hfit i)
    have hown := hrest i hi
    have hpair : Agents.Schedule Link.Step bs (c.own i, c.shared) (n.link, n.fs) := by
      rw [hown]
      exact Link.schedule_of_network hlone
    have hlift : Agents.Schedule Step (bs.map fun a => (i, a)) c
        ⟨n.fs, Function.update c.own i n.link⟩ :=
      Agents.Shared.lift (fun _ => Link.Step) c hpair
    refine ⟨_, _, hrun.append hlift, ?_, ?_, ?_⟩
    · intro j hj
      dsimp only
      by_cases hji : j = i
      · subst hji
        rw [Function.update_self]
        exact ⟨hf, hver⟩
      · rw [Function.update_of_ne hji]
        exact hdone j ((List.mem_cons.mp hj).resolve_left hji)
    · intro j hj
      rw [List.mem_cons, not_or] at hj
      dsimp only
      rw [Function.update_of_ne hj.1, hrest j hj.2]
    · exact hsaves.cons hd hi hsave

/-- How a run of all clients ends, whatever the order of the moves. -/
structure Served (mConfig : Config) (uuid : ι → UInt64) (hs : ι → List HorcruxData)
    (fs : FileSystem) (c : Cluster ι) : Prop where
  told : ∀ i, (c.own i).client.verdicts = answers mConfig (hs i)
  own : ∀ i (k : Nat) hcx, (keeps mConfig (hs i))[k]? = some hcx →
    c.shared (horcruxPath (uuid i) (.ofNat k)) =
      if fs (horcruxPath (uuid i) (.ofNat k)) = none ∧ fs kOutPath = some .directory then
        some (.file hcx.mContent) else fs (horcruxPath (uuid i) (.ofNat k))
  other : ∀ q, (∀ i, ∀ k < (keeps mConfig (hs i)).length, q ≠ horcruxPath (uuid i) (.ofNat k)) →
    c.shared q = fs q

/-- Every run is a part of one in which the clients come one after the other. -/
theorem exists_complete [Fintype ι] (mConfig : Config) (padding : ι → UInt32 → CharArray 4)
    (fs : FileSystem) (hd : Function.Injective uuid) (hn : ∀ i, (hs i).length < 2 ^ 32)
    (hfit : ∀ i, ∀ hcx ∈ (hs i).dropLast, hcx.mContent.length < 2 ^ 32) :
    ∃ (bs : List (ι × Agent)) (d : Cluster ι),
      (∀ i, (d.own i).Finished) ∧ Served mConfig uuid hs fs d ∧
      ∀ as c, Agents.Schedule Step as (start mConfig uuid padding hs fs) c →
        ∃ cs, bs.Perm (as ++ cs) ∧ Agents.Schedule Step cs c d := by
  obtain ⟨bs, d, hrun, hdone, _, hsaves⟩ :=
    exists_run mConfig padding hd hn hfit fs Finset.univ.toList Finset.univ.nodup_toList
  have hall : ∀ i : ι, i ∈ Finset.univ.toList := by simp
  have hfin : ∀ i, (d.own i).Finished := fun i => (hdone i (hall i)).1
  have hind : Agents.Independent Step fun c : Cluster ι => ∀ i, Link.Announces mConfig
      (serializeHeader (PreRequestHeader.fromHorcruxes (uuid i) (hs i)) noPadding) (c.own i) := by
    apply independent
    intro i j hne he
    rw [announcement_preRequest, announcement_preRequest] at he
    exact hne (hd he)
  refine ⟨bs, d, hfin, ⟨?_, ?_, ?_⟩, ?_⟩
  · exact fun i => (hdone i (hall i)).2
  · exact fun i => hsaves.own i (hall i)
  · exact fun q hq => hsaves.other q fun i _ => hq i
  · intro as c hc
    exact hind.descent start_announces hrun (stuck_of_finished hfin) hc

/-- What runs into a finished state is bounded, can go on, or has come to it. -/
theorem run_ends {d : Cluster ι} {as bs cs : List (ι × Agent)}
    (hd : ∀ i, (d.own i).Finished) (hp : bs.Perm (as ++ cs)) (hcs : Agents.Schedule Step cs c d) :
    as.length ≤ bs.length ∧ ((∀ i, (c.own i).Finished) ∨ ∃ x e, Step x c e) ∧
      ((∀ i, (c.own i).Finished) → c = d) := by
  refine ⟨?_, ?_, ?_⟩
  · rw [hp.length_eq, List.length_append]
    exact Nat.le_add_right _ _
  · cases hcs with
    | nil => exact .inl hd
    | cons hstep _ => exact .inr ⟨_, _, hstep⟩
  · intro hc
    cases hcs with
    | nil => rfl
    | cons hstep _ => exact False.elim (stuck_of_finished hc _ _ hstep)

section Rejoin
open Client BasicFileSplitter
variable {d : ι → Bytes} {N : ι → Nat}

theorem answers_pieces (h1 : 1 ≤ n) (h20 : n ≤ 20) (hd : content.length ≤ 10000000) :
    Admissible {} (pieces n (pieceSize n content) content) ∧
      answers {} (pieces n (pieceSize n content) content) = List.replicate (n + 1) true := by
  have hlen := length_pieces h1 (pieceSize n content) content
  have ha : Admissible {} (pieces n (pieceSize n content) content) := by
    refine ⟨by rw [hlen]; exact h20, ?_⟩
    rw [aggregate_pieces, Nat.mod_eq_of_lt (by omega)]
    exact hd
  refine ⟨ha, ?_⟩
  rw [answers, if_neg (pieces_ne_nil h1 _ _), if_pos ha, hlen]

omit [DecidableEq ι] in
/-- A file that was stored piece by piece comes back as a whole. -/
theorem Served.rejoined {i : ι} {c : Cluster ι}
    (h : Served {} uuid (fun i => pieces (N i) (pieceSize (N i) (d i)) (d i)) fs c)
    (hout : fs kOutPath = some .directory) (hfree : ∀ k, fs (horcruxPath (uuid i) k) = none)
    (hN : 1 ≤ N i ∧ N i ≤ 20) (hd : N i ≤ (d i).length ∧ (d i).length ≤ 10000000) :
    (c.own i).client.verdicts = List.replicate (N i + 1) true ∧
      joinFiles c.shared (uuid i) (.ofNat (N i)) = some (d i) := by
  obtain ⟨ha, hanswers⟩ := answers_pieces hN.1 hN.2 hd.2
  refine ⟨(h.told i).trans hanswers, ?_⟩
  have hlen := length_pieces hN.1 (pieceSize (N i) (d i)) (d i)
  have hle := lastOffset_le (N i) (d i)
  have hsize : pieceSize (N i) (d i) < 2 ^ 32 := Nat.mod_lt _ (by decide)
  have hcontents : (((pieces (N i) (pieceSize (N i) (d i)) (d i)).map stored).map
      HorcruxData.mContent).flatten = d i := by
    rw [← List.flatMap_def, stored_pieces_eq_iff hsize hle]
    omega
  have hload : ∀ k b, (((pieces (N i) (pieceSize (N i) (d i)) (d i)).map stored).map
      HorcruxData.mContent)[k]? = some b →
      loadFile c.shared (horcruxPath (uuid i) (.ofNat k)) = some b := by
    intro k b hk
    rw [List.getElem?_map, Option.map_eq_some_iff] at hk
    obtain ⟨hcx, hk, rfl⟩ := hk
    have hat := h.own i k hcx (by rw [keeps, if_pos ha]; exact hk)
    rw [loadFile_eq_some, hat, if_pos ⟨hfree _, hout⟩]
  have hjoin := joinFiles_pieces (by simp only [List.length_map, hlen]; omega) hload
  simpa only [List.length_map, hlen, hcontents] using hjoin

/-- Any number of clients save their files at the same time over sockets that take whole
buffers and whole responses, and each of the files comes back from the join tool as it was,
when no file was at its paths before and `out` is a directory. -/
theorem all_rejoined [Fintype ι] {cfs : ι → FileSystem} {path : ι → Path}
    (padding : ι → UInt32 → CharArray 4) (hu : Function.Injective uuid)
    (hload : ∀ i, loadFile (cfs i) (path i) = some (d i))
    (hN : ∀ i, 1 ≤ N i ∧ N i ≤ 20) (hd : ∀ i, N i ≤ (d i).length ∧ (d i).length ≤ 10000000)
    (hout : fs kOutPath = some .directory) (hfree : ∀ i k, fs (horcruxPath (uuid i) k) = none) :
    ∃ bound, ∀ as c, Agents.Schedule Step as (connected (fun i =>
        .connected (cfs i) (path i) (.ofNat (N i)) (uuid i) (padding i)) {} fs) c →
      as.length ≤ bound ∧ ((∀ i, (c.own i).Finished) ∨ ∃ x e, Step x c e) ∧
      ((∀ i, (c.own i).Finished) → ∀ i,
        (c.own i).client.verdicts = List.replicate (N i + 1) true ∧
        joinFiles c.shared (uuid i) (.ofNat (N i)) = some (d i)) := by
  have hsize : ∀ i, pieceSize (N i) (d i) < 2 ^ 32 := fun i => Nat.mod_lt _ (by decide)
  have hclients : (fun i => ClientMain.connected (cfs i) (path i) (.ofNat (N i)) (uuid i)
      (padding i)) = fun i => .withHorcruxes (uuid i) (padding i)
        (pieces (N i) (pieceSize (N i) (d i)) (d i)) := by
    funext i
    have hle := lastOffset_le (N i) (d i)
    have hi := hd i
    have hni := hN i
    exact connected_of_split (uuid i) (padding i) (hload i)
      (split_defined hni.1 (by omega) hi.1 (by omega))
  have hn : ∀ i, (pieces (N i) (pieceSize (N i) (d i)) (d i)).length < 2 ^ 32 := by
    intro i
    have hni := hN i
    rw [length_pieces hni.1]
    omega
  obtain ⟨bs, e, hfin, hserved, hpart⟩ := exists_complete {} padding fs hu hn
    fun i hcx hm => Nat.lt_of_le_of_lt (length_inner_piece hm) (hsize i)
  refine ⟨bs.length, fun as c hc => ?_⟩
  rw [hclients] at hc
  obtain ⟨cs, hperm, hcs⟩ := hpart as c hc
  obtain ⟨hbound, hmove, hend⟩ := run_ends hfin hperm hcs
  refine ⟨hbound, hmove, ?_⟩
  intro hfc i
  rw [hend hfc]
  exact hserved.rejoined hout (hfree i) (hN i) (hd i)

/-- Two clients at once, with two bytes in two pieces and one byte in one. -/
theorem all_rejoined_sample : ∃ bound, ∀ as c, Agents.Schedule Step as (connected (fun b : Bool =>
      .connected (fun _ => some (.file (if b then [104, 105] else [9]))) []
        (.ofNat (if b then 2 else 1)) (if b then 7 else 8) fun _ => zeroPadding) {}
        (outDirectory [])) c →
    as.length ≤ bound ∧ ((∀ i, (c.own i).Finished) ∨ ∃ x e, Step x c e) ∧
    ((∀ i, (c.own i).Finished) → ∀ b : Bool,
      (c.own b).client.verdicts = List.replicate ((if b then 2 else 1) + 1) true ∧
      joinFiles c.shared (if b then 7 else 8) (.ofNat (if b then 2 else 1)) =
        some (if b then [104, 105] else [9])) := by
  apply all_rejoined
  · decide
  · exact fun _ => rfl
  · decide
  · decide
  · rfl
  · exact fun _ k => free_outDirectory _ k

end Rejoin
end Cluster
end Horcrux
