import Horcrux.Proofs.Main
import Horcrux.Proofs.Rejoin

namespace Horcrux
open Save Utils

namespace Network
variable {takes : Phase → Nat} {n m m' : Network} {a b : Agent}

theorem shortStep_of_ne (h : a ≠ .client) : n.shortStep takes a = n.step a := by
  cases a with
  | client => exact absurd rfl h
  | server | transmit | deliverToServer | deliverToClient => rfl

theorem shortClientStep_write (hb : n.client.buffer = some bytes) :
    n.shortClientStep takes = some { n with
      client := n.client.resume (.wrote (min (takes n.client.phase) bytes.length))
      toServer := n.toServer ++ bytes.take (takes n.client.phase) } := by
  simp only [shortClientStep, hb]

theorem shortClientStep_read (hb : n.client.buffer = none) :
    n.shortClientStep takes = n.clientStep := by
  simp only [shortClientStep, hb]

/-- The others leave the client alone. -/
theorem step_client (h : n.step a = some m) (ha : a ≠ .client) : m.client = n.client := by
  cases a with
  | client => exact absurd rfl ha
  | server =>
    rcases serverStep_cases h with ⟨s, fs, _, _, rfl⟩ | ⟨s, fs, k, _, _, _, _, _, rfl⟩ <;> rfl
  | transmit =>
    obtain ⟨_, _, _, _, _, _, rfl⟩ := transmitStep_cases h
    rfl
  | deliverToServer =>
    obtain ⟨_, _, _, rfl⟩ := deliverToServerStep_cases h
    rfl
  | deliverToClient =>
    obtain ⟨_, _, _, rfl⟩ := deliverToClientStep_cases h
    rfl

/-- A write of any bytes commutes with what the others do. -/
theorem write_commute (hb : n.client.buffer = some bytes) (h : n.step a = some m)
    (ha : a ≠ .client) (client : ClientMain) (sent : Bytes) :
    step a { n with client := client, toServer := n.toServer ++ sent } =
      some { m with client := client, toServer := m.toServer ++ sent } := by
  cases a with
  | client => exact absurd rfl ha
  | server =>
    rcases serverStep_cases h with ⟨s, fs, hr, hcomp, rfl⟩ | ⟨_, _, _, _, _, hd, _⟩
    · exact serverStep_ready (n := { n with client := client, toServer := n.toServer ++ sent })
        hr hcomp
    · simp [ClientMain.buffer, hd] at hb
  | transmit =>
    obtain ⟨_, _, _, _, hp, hu, rfl⟩ := transmitStep_cases h
    exact transmitStep_eq hp hu
  | deliverToServer =>
    obtain ⟨x, bs, ht, rfl⟩ := deliverToServerStep_cases h
    have ht' : n.toServer ++ sent = x :: (bs ++ sent) := by rw [ht, List.cons_append]
    exact deliverToServerStep_eq ht'
  | deliverToClient =>
    obtain ⟨_, _, ht, rfl⟩ := deliverToClientStep_cases h
    exact deliverToClientStep_eq ht

theorem short_commute (h : n.shortClientStep takes = some m) (h' : n.step a = some m')
    (ha : a ≠ .client) : ∃ k, step a m = some k ∧ m'.shortClientStep takes = some k := by
  have hclient := step_client h' ha
  cases hb : n.client.buffer with
  | some bytes =>
    rw [shortClientStep_write hb] at h
    cases h
    refine ⟨_, write_commute hb h' ha _ _, ?_⟩
    rw [shortClientStep_write (hclient ▸ hb), hclient]
  | none =>
    rw [shortClientStep_read hb] at h
    obtain ⟨k, hk, hk'⟩ := step_commute (Ne.symm ha) n m m' h h'
    exact ⟨k, hk, (shortClientStep_read (hclient ▸ hb)).trans hk'⟩

/-- The order of the moves makes no difference here either. -/
theorem short_independent (takes : Phase → Nat) :
    Agents.Independent (ShortStep takes) fun _ => True where
  keeps _ _ := trivial
  det _ h h' := Option.some.inj (h.symm.trans h')
  commute := by
    intro n a b m m' _ hne h h'
    by_cases ha : a = .client
    · subst ha
      have hb : b ≠ .client := Ne.symm hne
      rw [ShortStep, shortStep_of_ne hb] at h'
      obtain ⟨k, hk, hk'⟩ := short_commute h h' hb
      exact ⟨k, (shortStep_of_ne hb).trans hk, hk'⟩
    · by_cases hb : b = .client
      · subst hb
        rw [ShortStep, shortStep_of_ne ha] at h
        obtain ⟨k, hk, hk'⟩ := short_commute h' h ha
        exact ⟨k, hk', (shortStep_of_ne ha).trans hk⟩
      · rw [ShortStep, shortStep_of_ne ha] at h
        rw [ShortStep, shortStep_of_ne hb] at h'
        obtain ⟨k, hk, hk'⟩ := step_commute hne n m m' h h'
        exact ⟨k, (shortStep_of_ne hb).trans hk, (shortStep_of_ne ha).trans hk'⟩

/-- The client's moves use up its calls. -/
theorem step_callsLeft (h : n.step a = some m) :
    (a = .client → m.client.callsLeft < n.client.callsLeft) ∧
      m.client.callsLeft ≤ n.client.callsLeft := by
  by_cases ha : a = .client
  · subst ha
    have hlt : m.client.callsLeft < n.client.callsLeft := by
      rcases clientStep_cases h with ⟨bytes, hb, rfl⟩ | ⟨_, hr, _, rfl⟩ | ⟨_, hr, _, _, _, rfl⟩
      · exact ClientMain.callsLeft_wrote hb _
      · exact ClientMain.callsLeft_read hr _
      · exact ClientMain.callsLeft_readError hr
    exact ⟨fun _ => hlt, hlt.le⟩
  · exact ⟨fun he => absurd he ha, Nat.le_of_eq (by rw [step_client h ha])⟩

theorem run_callsLeft (h : Agents.Schedule Step as n m) :
    m.client.callsLeft ≤ n.client.callsLeft := by
  induction h with
  | nil => exact Nat.le_refl _
  | cons hs _ ih => exact ih.trans (step_callsLeft hs).2

/-- Headers go out whole, and so do the contents that come before `rest` and the request in
front of it. -/
structure WholeBefore (takes : Phase → Nat) (rest : List Request) : Prop where
  preRequest : 16 ≤ takes .sendPreRequest
  header : ∀ r rest', 24 ≤ takes (.sendHeader r rest')
  content : ∀ r rest', rest.length < rest'.length → r.mContent.length ≤ takes (.sendContent r rest')

theorem WholeBefore.buffer_le {c : ClientMain} (hw : WholeBefore takes rest)
    (hb : c.buffer = some bytes) (hl : 2 + 3 * rest.length < c.callsLeft) :
    bytes.length ≤ takes c.phase := by
  obtain ⟨horcruxes, pre, padding, phase, verdicts⟩ := c
  cases phase with
  | sendPreRequest =>
    cases hb
    exact (Nat.le_of_eq (serializeHeader pre noPadding).property).trans hw.preRequest
  | sendHeader r rest' =>
    cases hb
    exact (Nat.le_of_eq (serializeHeader r.mHeader (padding r.mHeader.mIndex)).property).trans
      (hw.header r rest')
  | sendContent r rest' =>
    cases hb
    refine hw.content r rest' ?_
    rw [ClientMain.callsLeft] at hl
    dsimp only at hl
    omega
  | readPreResponse | readResponse _ | done => cases hb

/-- Up to the write that is cut, the network does what it does without short writes. -/
theorem WholeBefore.schedule (hw : WholeBefore takes rest) (h : Agents.Schedule Step as n m)
    (hm : 2 + 3 * rest.length ≤ m.client.callsLeft) :
    Agents.Schedule (ShortStep takes) as n m := by
  induction h with
  | nil => exact .nil
  | @cons a n n' as m hs htail ih =>
    refine .cons ?_ (ih hm)
    by_cases ha : a = .client
    · subst ha
      cases hb : n.client.buffer with
      | none => exact (shortClientStep_read hb).trans hs
      | some bytes =>
        have hlt := (step_callsLeft hs).1 rfl
        have hle := hw.buffer_le hb (by have := run_callsLeft htail; omega)
        refine (shortClientStep_write hb).trans ?_
        rw [Nat.min_eq_right hle, List.take_of_length_le hle]
        exact (clientStep_write hb).symm.trans hs
    · exact (shortStep_of_ne ha).trans hs

theorem others_schedule (h : Agents.Schedule Step as n m) (hc : .client ∉ as) :
    Agents.Schedule (ShortStep takes) as n m := by
  induction h with
  | nil => exact .nil
  | cons hs _ ih =>
    rw [List.mem_cons, not_or] at hc
    exact .cons ((shortStep_of_ne (Ne.symm hc.1)).trans hs) (ih hc.2)

section Rounds
variable {mConfig : Config} {u v : Upload mConfig} {base : ClientMain} {c : TcpConnection}

theorem store_not_complete (hpre : v.pre = u.pre) (ha : u.Admits x.head)
    (hl : x.content.length = x.head.mContentSize.toNat)
    (hms : v.messages = (u.store x ha hl).messages ++ ms) (hne : ms ≠ []) :
    ¬ (u.store x ha hl).Complete := by
  intro hc
  have hcount : v.count = (u.store x ha hl).count := by
    simp [Upload.count, Upload.announced, Upload.store, hpre]
  have hle := v.length_le
  have hpos := List.length_pos_iff.mpr hne
  rw [hms, List.length_append, hc.1, hcount] at hle
  omega

/-- The send loop up to request `r`, with the server's answers. -/
theorem rounds (hs : List.Forall₂ (Ships base []) (sent ++ r :: rest) ms) (verdicts : List Bool)
    (hr : c.Receives u) (hp : c.pending = some .readRequestHeader) (hpre : v.pre = u.pre)
    (hms : v.messages = u.messages ++ ms) (fs : FileSystem) :
    ∃ as c', ∃ u' : Upload mConfig, ∃ x ms', Agents.Schedule Step as
      (idle { base with phase := ClientMain.sendLoop (sent ++ r :: rest), verdicts := verdicts }
        ⟨c, []⟩ fs)
      (idle { base with
        phase := .sendHeader r rest, verdicts := verdicts ++ List.replicate sent.length true }
        ⟨c', []⟩ fs) ∧
      c'.Receives u' ∧ c'.pending = some .readRequestHeader ∧ v.pre = u'.pre ∧
      v.messages = u'.messages ++ x :: ms' ∧ Ships base [] r x := by
  induction sent generalizing u c verdicts ms with
  | nil =>
    cases hs with
    | cons hship _ => exact ⟨[], c, u, _, _, by simpa using .nil, hr, hp, hpre, hms, hship⟩
  | cons r₀ sent ih =>
    cases hs with
    | @cons _ m₀ _ ms hship hs =>
      obtain ⟨ha, hl⟩ := admits_of_extends hpre hms
      obtain ⟨as, c₁, hround, hr₁, hp₁⟩ :=
        round hr hp ha hl hship (sent ++ r :: rest) verdicts fs
      have hms' : v.messages = (u.store m₀ ha hl).messages ++ ms := by
        simp [Upload.store, hms]
      have hne : ms ≠ [] := by
        intro he
        subst he
        simpa using hs.length_eq
      rw [Upload.next, if_neg (store_not_complete hpre ha hl hms' hne)] at hp₁
      obtain ⟨bs, hanswer⟩ := answer
        { base with phase := .readResponse (sent ++ r :: rest), verdicts := verdicts } [] hp₁ rfl
        rfl (rfl : c₁.onResponse .readRequestHeader fs = some (c₁.readRequestHeader, fs)) rfl
      have hr₂ : c₁.readRequestHeader.Receives (u.store m₀ ha hl) :=
        ⟨hr₁.config, hr₁.header, hr₁.slots⟩
      obtain ⟨cs, c', u', x, ms', hloop, hrest⟩ := ih hs (verdicts ++ [true]) hr₂ rfl hpre hms'
      have hcount : verdicts ++ [true] ++ List.replicate sent.length true =
          verdicts ++ List.replicate (r₀ :: sent).length true := by
        rw [List.append_assoc]
        rfl
      rw [hcount] at hloop
      exact ⟨as ++ (bs ++ cs), c', u', x, ms', hround.append (hanswer.append hloop), hrest⟩

/-- The first content that is cut: the server waits for the rest of it, and the client for an
answer. -/
theorem cut_run (hr : c.Receives u) (hp : c.pending = some .readRequestHeader)
    (ha : u.Admits x.head) (hl : x.content.length = x.head.mContentSize.toNat)
    (hs : Ships base [] r x) (hw : WholeBefore takes rest)
    (verdicts : List Bool) (fs : FileSystem) :
    ∃ as c', Agents.Schedule (ShortStep takes) as
      (idle { base with phase := .sendHeader r rest, verdicts := verdicts } ⟨c, []⟩ fs)
      (idle { base with phase := .readResponse rest, verdicts := verdicts }
        ⟨c', r.mContent.take (takes (.sendContent r rest))⟩ fs) ∧
      c'.pending = some .readRequestContent ∧ c'.contentBufferSize = r.mContent.length := by
  obtain ⟨hh, hc⟩ := hs
  rw [List.append_nil] at hc
  obtain ⟨_, hp₁, hh₁, hb₁, _⟩ := onRequestHeader_admitted hr x.header ha
  have hsize : (c.onRequestHeader x.header).contentBufferSize = r.mContent.length := by
    rw [TcpConnection.contentBufferSize, hb₁, Nat.min_self, hh₁, hc, hl]
    rfl
  have hwrite₁ : Step .client
      (idle { base with phase := .sendHeader r rest, verdicts := verdicts } ⟨c, []⟩ fs)
      { idle { base with phase := .sendContent r rest, verdicts := verdicts } ⟨c, []⟩ fs with
        toServer := x.header.val } := by
    rw [hh]
    exact client_writes rfl
  have hwrite₂ : ShortStep takes .client
      { idle { base with phase := .sendContent r rest, verdicts := verdicts } ⟨c, []⟩ fs with
        toServer := x.header.val }
      { idle { base with phase := .readResponse rest, verdicts := verdicts } ⟨c, []⟩ fs with
        toServer := x.header.val ++ r.mContent.take (takes (.sendContent r rest)) } :=
    shortClientStep_write (n := { idle
      { base with phase := .sendContent r rest, verdicts := verdicts } ⟨c, []⟩ fs with
      toServer := x.header.val }) rfl
  have hdeliver := (deliverToServer_all (n := { idle
    { base with phase := .readResponse rest, verdicts := verdicts } ⟨c, []⟩ fs with
    toServer := x.header.val ++ r.mContent.take (takes (.sendContent r rest)) }) _ rfl)
  have hread : Step .server
      (idle { base with phase := .readResponse rest, verdicts := verdicts }
        ⟨c, x.header.val ++ r.mContent.take (takes (.sendContent r rest))⟩ fs)
      (idle { base with phase := .readResponse rest, verdicts := verdicts }
        ⟨c.onRequestHeader x.header, r.mContent.take (takes (.sendContent r rest))⟩ fs) := by
    apply (server_reads (n := idle { base with phase := .readResponse rest, verdicts := verdicts }
      ⟨c, x.header.val ++ r.mContent.take (takes (.sendContent r rest))⟩ fs) (k := 24)
      (by simp [TcpConnection.requested, idle, hp])
      (Session.complete_ok_requestHeader hp x.header rfl)).trans
    simp [afterHandler, idle, TcpConnection.outgoing, hp₁]
  exact ⟨_, _, (hw.schedule (.single hwrite₁) (Nat.le_refl _)).append (.cons hwrite₂
    (others_schedule (hdeliver.append (.single hread)) (by simp))), hp₁, hsize⟩

/-- A server that waits for more than there is, and a client that waits for its answer. -/
theorem waiting_stuck (hp : c.pending = some .readRequestContent)
    (hl : bytes.length < c.contentBufferSize) (verdicts : List Bool) (fs : FileSystem) :
    Agents.Stuck (ShortStep takes)
      (idle { base with phase := .readResponse rest, verdicts := verdicts } ⟨c, bytes⟩ fs) := by
  intro a m hm
  cases a with
  | client =>
    simp [ShortStep, shortStep, shortClientStep, clientStep, ClientMain.buffer, ClientMain.reading,
      idle, hp] at hm
  | server =>
    have hrequested : c.requested = some c.contentBufferSize := by
      simp [TcpConnection.requested, hp]
    have hs := (serverStep_requested (n := idle
      { base with phase := .readResponse rest, verdicts := verdicts } ⟨c, bytes⟩ fs)
      hrequested).symm.trans hm
    simp [idle, Nat.not_le.mpr hl] at hs
  | transmit => simp [ShortStep, shortStep, step, transmitStep, idle, hp] at hm
  | deliverToServer => simp [ShortStep, shortStep, step, deliverToServerStep, idle] at hm
  | deliverToClient => simp [ShortStep, shortStep, step, deliverToClientStep, idle] at hm

/-- The whole run up to the cut. -/
theorem interrupted_run (base : ClientMain) (v : Upload mConfig) (fs : FileSystem)
    (hpre : v.pre = serializeHeader base.preRequestHeader noPadding)
    (hreq : Request.fromHorcruxes base.preRequestHeader.mUuid base.horcruxes = sent ++ r :: rest)
    (hs : List.Forall₂ (Ships base []) (sent ++ r :: rest) v.messages)
    (hw : WholeBefore takes rest) (hcut : takes (.sendContent r rest) < r.mContent.length) :
    ∃ as m, Agents.Schedule (ShortStep takes) as
        (connected { base with phase := .sendPreRequest, verdicts := [] } mConfig fs) m ∧
      Agents.Stuck (ShortStep takes) m ∧ m.client.phase = .readResponse rest ∧
      m.client.verdicts = List.replicate (sent.length + 1) true ∧
      m.session.conn.pending = some .readRequestContent ∧ m.fs = fs := by
  obtain ⟨hr, hp, _⟩ := onPreRequestHeader_announced mConfig v.pre v.number v.size
  obtain ⟨as, hopen⟩ := opening { base with verdicts := [] } v.pre mConfig fs hpre
  rw [(onPreRequestHeader_answering _ _).outgoing hp] at hopen
  obtain ⟨bs, hanswer⟩ := answer { base with phase := .readPreResponse, verdicts := [] } [] hp rfl
    rfl (rfl : TcpConnection.onResponse _ .readRequestHeader fs = some (_, fs)) rfl
  have hloop : ClientMain.resume { base with phase := .readPreResponse, verdicts := [] }
      (.read (response true)) =
      { base with phase := ClientMain.sendLoop (sent ++ r :: rest), verdicts := [true] } := by
    rw [← hreq]
    rfl
  rw [hloop] at hanswer
  obtain ⟨cs, c₁, u, x, ms, hrounds, hr₁, hp₁, hpre₁, hms₁, hship⟩ := rounds hs [true]
    (c := TcpConnection.readRequestHeader _) (v := v)
    (u := Upload.announce v.pre v.number v.size)
    ⟨hr.config, hr.header, hr.slots⟩ rfl rfl (List.nil_append _).symm fs
  obtain ⟨ha, hl⟩ := admits_of_extends hpre₁ hms₁
  obtain ⟨ds, c₂, hcutrun, hp₂, hsize₂⟩ := cut_run hr₁ hp₁ ha hl hship hw
    ([true] ++ List.replicate sent.length true) fs
  have hwhole := hw.schedule (hopen.append (hanswer.append hrounds)) (by
    simp only [idle, ClientMain.callsLeft]
    omega)
  refine ⟨_, _, hwhole.append hcutrun, waiting_stuck hp₂ ?_ _ _, rfl, rfl, hp₂, rfl⟩
  rw [hsize₂, List.length_take, Nat.min_eq_left hcut.le]
  exact hcut

/-- The same for the client of `hs`. -/
theorem hanging_run (hne : hs ≠ []) (hn : hs.length < 2 ^ 32)
    (hnum : hs.length ≤ mConfig.mMaxNumHorcruxAccepted.toNat)
    (hsize : aggregate hs % 2 ^ 32 ≤ mConfig.mMaxTotalSizeAccepted.toNat)
    (hfit : ∀ hcx ∈ hs, hcx.mContent.length < 2 ^ 32)
    (hreq : Request.fromHorcruxes uuid hs = sent ++ r :: rest) (hw : WholeBefore takes rest)
    (hcut : takes (.sendContent r rest) < r.mContent.length)
    (padding : UInt32 → CharArray 4) (fs : FileSystem) :
    ∃ as m, Agents.Schedule (ShortStep takes) as
        (.connected (.withHorcruxes uuid padding hs) mConfig fs) m ∧
      Agents.Stuck (ShortStep takes) m ∧ m.client.phase = .readResponse rest ∧
      m.client.verdicts = List.replicate (sent.length + 1) true ∧
      m.session.conn.pending = some .readRequestContent ∧ m.fs = fs := by
  have hclient := ClientMain.withHorcruxes_of_ne_nil uuid padding hne
  have hships : List.Forall₂ (Ships (.withHorcruxes uuid padding hs) [])
      (hs.mapIdx (Request.of uuid)) (hs.mapIdx (shipped uuid padding)) := by
    apply Lists.forall₂_mapIdx
    intro i hcx hm
    have hship := ships_shipped uuid (congrArg ClientMain.padding hclient) i hcx
    rwa [Nat.mod_eq_of_lt (hfit hcx hm), List.drop_length] at hship
  rw [← Request.fromHorcruxes_eq, hreq] at hships
  have hrun := interrupted_run (ClientMain.withHorcruxes uuid padding hs)
    (clientUpload mConfig uuid padding hs hn hnum hsize) fs (by rw [hclient]; rfl)
    (by rw [hclient, PreRequestHeader.fromHorcruxes_eq]; exact hreq) hships hw hcut
  have hstart : ClientMain.withHorcruxes uuid padding hs =
      { ClientMain.withHorcruxes uuid padding hs with
        phase := .sendPreRequest, verdicts := [] } := by
    rw [hclient]
  rwa [← hstart] at hrun

end Rounds

/-- A move leaves the server's connection and the files alone, or it is one of its handlers. -/
theorem short_session (h : ShortStep takes a n m) :
    (m.session.conn = n.session.conn ∧ m.fs = n.fs) ∨
      ∃ io, n.session.complete io n.fs = .next (m.session, m.fs) := by
  by_cases ha : a = .client
  · subst ha
    have hc : n.shortClientStep takes = some m := h
    cases hb : n.client.buffer with
    | some bytes =>
      rw [shortClientStep_write hb] at hc
      cases hc
      exact .inl ⟨rfl, rfl⟩
    | none =>
      rw [shortClientStep_read hb] at hc
      rcases clientStep_cases hc with ⟨_, _, rfl⟩ | ⟨_, _, _, rfl⟩ | ⟨_, _, _, _, _, rfl⟩ <;>
        exact .inl ⟨rfl, rfl⟩
  · have hs : n.step a = some m := (shortStep_of_ne ha).symm.trans h
    cases a with
    | client => exact absurd rfl ha
    | server =>
      rcases serverStep_cases hs with ⟨s, fs, _, hcomp, rfl⟩ | ⟨s, fs, k, _, _, _, _, hcomp, rfl⟩
      · exact .inr ⟨_, hcomp⟩
      · exact .inr ⟨_, hcomp⟩
    | transmit =>
      obtain ⟨_, _, _, _, _, _, rfl⟩ := transmitStep_cases hs
      exact .inl ⟨rfl, rfl⟩
    | deliverToServer =>
      obtain ⟨_, _, _, rfl⟩ := deliverToServerStep_cases hs
      exact .inl ⟨rfl, rfl⟩
    | deliverToClient =>
      obtain ⟨_, _, _, rfl⟩ := deliverToClientStep_cases hs
      exact .inl ⟨rfl, rfl⟩

/-- A connection that has ended starts nothing any more. -/
theorem ended_kept (h : Agents.Schedule (ShortStep takes) as n m)
    (hp : n.session.conn.pending = none) : m.session.conn.pending = none :=
  h.keeps (P := fun n => n.session.conn.pending = none) (fun a _ n m hp hs => by
    rcases short_session hs with ⟨hc, _⟩ | ⟨io, hcomp⟩
    · rw [hc, hp]
    · cases (Session.complete_none hp io n.fs).symm.trans hcomp) hp

/-- The files change only in the last handler of the connection. -/
theorem fs_kept (h : Agents.Schedule (ShortStep takes) as n m) :
    m.fs = n.fs ∨ m.session.conn.pending = none :=
  h.keeps (P := fun k => k.fs = n.fs ∨ k.session.conn.pending = none) (fun a _ k m hk hs => by
    rcases short_session hs with ⟨hc, hfs⟩ | ⟨io, hcomp⟩
    · rwa [hc, hfs]
    · rcases hk with hk | hk
      · rcases complete_cases hcomp with ⟨_, hp, _⟩ | ⟨_, _, _, hfs⟩ | ⟨_, hp, _⟩
        · exact .inr hp
        · exact .inl (hfs.trans hk)
        · exact .inr hp
      · cases (Session.complete_none hk io k.fs).symm.trans hcomp) (.inl rfl)

theorem done_kept (h : Agents.Schedule (ShortStep takes) as n m) (hd : n.client.phase = .done) :
    m.client.phase = .done :=
  h.keeps (P := fun n => n.client.phase = .done) (fun a _ n m hd hs => by
    by_cases ha : a = .client
    · subst ha
      have hb : n.client.buffer = none := by simp [ClientMain.buffer, hd]
      cases (clientStep_done hd).symm.trans ((shortClientStep_read hb).symm.trans hs)
    · rw [step_client ((shortStep_of_ne ha).symm.trans hs) ha, hd]) hd

/-- A content that `write_some` does not take whole hangs the upload. Whatever the order of
the moves, all runs lead to one deadlock, after a bounded number of moves: the server waits
for the rest of the content and the client for its answer, which comes to none of them. Nothing
is ever saved, and no content is acknowledged that was not sent whole. -/
theorem short_write_hangs (mConfig : Config) (uuid : UInt64) (padding : UInt32 → CharArray 4)
    (fs : FileSystem) {hs : List HorcruxData}
    (hn : hs.length < 2 ^ 32) (hnum : hs.length ≤ mConfig.mMaxNumHorcruxAccepted.toNat)
    (hsize : aggregate hs % 2 ^ 32 ≤ mConfig.mMaxTotalSizeAccepted.toNat)
    (hfit : ∀ hcx ∈ hs, hcx.mContent.length < 2 ^ 32)
    (hreq : Request.fromHorcruxes uuid hs = sent ++ r :: rest) (hw : WholeBefore takes rest)
    (hcut : takes (.sendContent r rest) < r.mContent.length) :
    ∃ k m, Agents.Stuck (ShortStep takes) m ∧ m.client.phase = .readResponse rest ∧
      m.client.verdicts = List.replicate (sent.length + 1) true ∧
      m.session.conn.pending = some .readRequestContent ∧ m.fs = fs ∧
      ∀ bs n, Agents.Schedule (ShortStep takes) bs
          (.connected (.withHorcruxes uuid padding hs) mConfig fs) n →
        bs.length ≤ k ∧ n.fs = fs ∧ n.client.phase ≠ .done ∧
          ∃ cs, Agents.Schedule (ShortStep takes) cs n m := by
  have hne : hs ≠ [] := by
    intro he
    have hlen := congrArg List.length hreq
    rw [length_fromHorcruxes, he] at hlen
    simp at hlen
  obtain ⟨as, m, hrun, hstuck, hphase, hverdicts, hpending, hfs⟩ :=
    hanging_run hne hn hnum hsize hfit hreq hw hcut padding fs
  refine ⟨as.length, m, hstuck, hphase, hverdicts, hpending, hfs, fun bs n hbs => ?_⟩
  obtain ⟨cs, hperm, hcs⟩ := (short_independent takes).descent trivial hrun hstuck hbs
  refine ⟨?_, ?_, ?_, cs, hcs⟩
  · rw [hperm.length_eq, List.length_append]
    exact Nat.le_add_right _ _
  · rcases fs_kept hbs with hk | hp
    · exact hk
    · cases (ended_kept hcs hp).symm.trans hpending
  · intro hd
    cases (done_kept hcs hd).symm.trans hphase

/-- Of the last content one byte goes out. -/
def takesOneByte : Phase → Nat
  | .sendContent _ [] => 1
  | .sendContent r _ => r.mContent.length
  | _ => 24

theorem wholeBefore_takesOneByte : WholeBefore takesOneByte [] where
  preRequest := by decide
  header _ _ := Nat.le_refl 24
  content r rest h := by
    cases rest with
    | nil => exact absurd h (by decide)
    | cons _ _ => exact Nat.le_refl _

theorem short_write_hangs_sample : ∃ m, Agents.Stuck (ShortStep takesOneByte) m ∧
    m.client.phase = .readResponse [] ∧ m.fs = outDirectory [] := by
  have hreq : Request.fromHorcruxes 7 [⟨[104, 105], []⟩] =
      [] ++ Request.of 7 0 ⟨[104, 105], []⟩ :: [] := rfl
  obtain ⟨_, m, hstuck, hphase, _, _, hfs, _⟩ := short_write_hangs {} 7 (fun _ => zeroPadding)
    (outDirectory []) (by decide) (by decide) (by decide) (by decide) hreq
    wholeBefore_takesOneByte (by decide)
  exact ⟨m, hstuck, hphase, hfs⟩

end Network
end Horcrux
