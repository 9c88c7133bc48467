import Horcrux.Proofs.Exchange
import Horcrux.Proofs.FileIds
import Horcrux.Proofs.Splitting

namespace Horcrux
open Save Utils

/-- The request as the server sees it: of the content it takes as much as the size field
says, which has 32 bits. -/
def shipped (uuid : UInt64) (padding : UInt32 → CharArray 4) (i : Nat) (hcx : HorcruxData) :
    Message where
  header := serializeHeader (Request.of uuid i hcx).mHeader (padding (.ofNat i))
  content := hcx.mContent.take (hcx.mContent.length % 2 ^ 32)

/-- What the server keeps of a horcrux. -/
def stored (hcx : HorcruxData) : HorcruxData :=
  ⟨hcx.mContent.take (hcx.mContent.length % 2 ^ 32), []⟩

section Client
variable {mConfig : Config} {uuid : UInt64} {padding : UInt32 → CharArray 4}
  {hs : List HorcruxData}

theorem head_shipped (i : Nat) (hcx : HorcruxData) :
    (shipped uuid padding i hcx).head = (Request.of uuid i hcx).mHeader :=
  deserialize_requestHeader _ _

theorem indices_shipped (uuid : UInt64) (padding : UInt32 → CharArray 4) (hn : hs.length < 2 ^ 32) :
    ((hs.mapIdx (shipped uuid padding)).map Message.entry).map Prod.fst =
      List.range hs.length := by
  apply List.ext_getElem
  · simp
  · intro i hi hi'
    rw [List.length_range] at hi'
    simp only [List.getElem_map, List.getElem_mapIdx, List.getElem_range, Message.entry,
      head_shipped, Request.of]
    exact UInt32.toNat_ofNat_of_lt' (Nat.lt_trans hi' hn)

theorem announcement_preRequest (uuid : UInt64) (hs : List HorcruxData) :
    announcement (serializeHeader (PreRequestHeader.fromHorcruxes uuid hs) noPadding) =
      ⟨uuid, .ofNat (aggregate hs), .ofNat hs.length⟩ := by
  rw [announcement, deserialize_preRequestHeader, PreRequestHeader.fromHorcruxes_eq]

/-- The upload that the client makes of its horcruxes. -/
def clientUpload (mConfig : Config) (uuid : UInt64) (padding : UInt32 → CharArray 4)
    (hs : List HorcruxData) (hn : hs.length < 2 ^ 32)
    (hnum : hs.length ≤ mConfig.mMaxNumHorcruxAccepted.toNat)
    (hsize : aggregate hs % 2 ^ 32 ≤ mConfig.mMaxTotalSizeAccepted.toNat) : Upload mConfig where
  pre := serializeHeader (PreRequestHeader.fromHorcruxes uuid hs) noPadding
  messages := hs.mapIdx (shipped uuid padding)
  number := by
    rw [announcement_preRequest]
    simpa only [UInt32.toNat_ofNat_of_lt' hn] using hnum
  size := by
    rw [announcement_preRequest]
    simpa only [UInt32.toNat_ofNat'] using hsize
  uuid := by
    intro m hm
    obtain ⟨i, hi, rfl⟩ := List.mem_mapIdx.mp hm
    rw [announcement_preRequest, head_shipped]
    rfl
  length := by
    intro m hm
    obtain ⟨i, hi, rfl⟩ := List.mem_mapIdx.mp hm
    rw [head_shipped]
    simp only [shipped, Request.of, List.length_take, UInt32.toNat_ofNat']
    exact Nat.min_eq_left (Nat.mod_le _ _)
  fits := by
    rw [announcement_preRequest]
    apply Slots.Fits.of_perm_range
    rw [indices_shipped uuid padding hn, UInt32.toNat_ofNat_of_lt' hn]

theorem clientUpload_count (hn hnum hsize) :
    (clientUpload mConfig uuid padding hs hn hnum hsize).count = hs.length := by
  rw [Upload.count, Upload.announced, clientUpload, announcement_preRequest]
  exact UInt32.toNat_ofNat_of_lt' hn

theorem clientUpload_complete (hn hnum hsize) (hne : hs ≠ []) :
    (clientUpload mConfig uuid padding hs hn hnum hsize).Complete := by
  refine ⟨?_, ?_⟩
  · rw [clientUpload_count]
    exact List.length_mapIdx
  · rw [clientUpload_count]
    exact List.length_pos_iff.mpr hne

theorem clientUpload_slots (hn hnum hsize) :
    (clientUpload mConfig uuid padding hs hn hnum hsize).slots = (hs.map stored).map some := by
  apply List.ext_getElem?
  intro i
  by_cases hi : i < hs.length
  · have hm : shipped uuid padding i hs[i] ∈
        (clientUpload mConfig uuid padding hs hn hnum hsize).messages :=
      List.mem_mapIdx.mpr ⟨i, hi, rfl⟩
    have hslot := Upload.slots_getElem? _ hm
    rw [head_shipped] at hslot
    simp only [Request.of, UInt32.toNat_ofNat_of_lt' (Nat.lt_trans hi hn)] at hslot
    rw [hslot]
    simp [hi, stored, shipped]
  · have hlen : (clientUpload mConfig uuid padding hs hn hnum hsize).slots.length = hs.length := by
      rw [Upload.length_slots, clientUpload_count]
    rw [List.getElem?_eq_none (by omega), List.getElem?_eq_none (by simpa using hi)]

theorem ships_shipped (uuid : UInt64) {base : ClientMain} (hb : base.padding = padding) (i : Nat)
    (hcx : HorcruxData) :
    Network.Ships base (hcx.mContent.drop (hcx.mContent.length % 2 ^ 32)) (Request.of uuid i hcx)
      (shipped uuid padding i hcx) := by
  refine ⟨?_, (List.take_append_drop _ _).symm⟩
  rw [hb]
  rfl

/-- The whole run of a client whose pre-request is within the limits and whose pieces,
up to the last one, have sizes that fit in their field. -/
theorem client_run (mConfig : Config) (uuid : UInt64) (padding : UInt32 → CharArray 4)
    (fs : FileSystem) (hne : hs ≠ []) (hn : hs.length < 2 ^ 32)
    (hnum : hs.length ≤ mConfig.mMaxNumHorcruxAccepted.toNat)
    (hsize : aggregate hs % 2 ^ 32 ≤ mConfig.mMaxTotalSizeAccepted.toNat)
    (hfit : ∀ hcx ∈ hs.dropLast, hcx.mContent.length < 2 ^ 32) :
    ∃ as n, Agents.Schedule Network.Step as
        (.connected (.withHorcruxes uuid padding hs) mConfig fs) n ∧ n.Finished ∧
      n.client.verdicts = List.replicate (hs.length + 1) true ∧
      Saves fs n.fs uuid (hs.map stored) := by
  have hclient := ClientMain.withHorcruxes_of_ne_nil uuid padding hne
  have hv : (clientUpload mConfig uuid padding hs hn hnum hsize).Complete :=
    clientUpload_complete hn hnum hsize hne
  have hslots : (clientUpload mConfig uuid padding hs hn hnum hsize).slots = _ :=
    clientUpload_slots hn hnum hsize
  obtain ⟨init, last, rfl⟩ : ∃ init last, hs = init ++ [last] :=
    ⟨hs.dropLast, hs.getLast hne, (List.dropLast_append_getLast hne).symm⟩
  rw [List.dropLast_concat] at hfit
  have hinit : List.Forall₂ (Network.Ships (.withHorcruxes uuid padding (init ++ [last])) [])
      (init.mapIdx (Request.of uuid)) (init.mapIdx (shipped uuid padding)) := by
    apply Lists.forall₂_mapIdx
    intro i hcx hm
    have hship := ships_shipped uuid (congrArg ClientMain.padding hclient) i hcx
    rwa [Nat.mod_eq_of_lt (hfit hcx hm), List.drop_length] at hship
  obtain ⟨as, c, fs', hrun, hr, hp, hsave⟩ := Network.accepted_run
    (.withHorcruxes uuid padding (init ++ [last])) fs hv (by rw [hclient]; rfl)
    (by rw [hclient, Request.fromHorcruxes_eq, PreRequestHeader.fromHorcruxes_eq]
        exact List.mapIdx_concat)
    hinit (ships_shipped uuid (congrArg ClientMain.padding hclient) _ last) List.mapIdx_concat
  have hstart : (.withHorcruxes uuid padding (init ++ [last]) : ClientMain) =
      { ClientMain.withHorcruxes uuid padding (init ++ [last]) with
        phase := .sendPreRequest, verdicts := [] } := by
    rw [hclient]
  rw [← hstart] at hrun
  refine ⟨as, _, hrun, ⟨rfl, hp, rfl, rfl⟩, ?_, hr.saves ⟨?_, hr.slots.trans hslots⟩ hsave⟩
  · simp [Network.idle]
  · rw [hr.header, Upload.announced, clientUpload, announcement_preRequest]

theorem refused_client_run (mConfig : Config) (uuid : UInt64) (padding : UInt32 → CharArray 4)
    (fs : FileSystem)
    (hne : hs ≠ []) (hn : hs.length < 2 ^ 32)
    (hl : mConfig.mMaxNumHorcruxAccepted.toNat < hs.length ∨
      mConfig.mMaxTotalSizeAccepted.toNat < aggregate hs % 2 ^ 32) :
    ∃ as n, Agents.Schedule Network.Step as
        (.connected (.withHorcruxes uuid padding hs) mConfig fs) n ∧ n.Finished ∧
      n.client.verdicts = [false] ∧ n.session.conn.responses = [false] ∧ n.fs = fs := by
  have hclient := ClientMain.withHorcruxes_of_ne_nil uuid padding hne
  obtain ⟨as, c, hrun, hp, hresp⟩ := Network.refused_run
    { horcruxes := hs, preRequestHeader := .fromHorcruxes uuid hs, padding := padding,
      phase := .sendPreRequest } mConfig fs rfl (by
        rw [announcement_preRequest]
        simp only [UInt32.toNat_ofNat_of_lt' hn, UInt32.toNat_ofNat']
        omega)
  rw [hclient]
  exact ⟨as, _, hrun, ⟨rfl, hp, rfl, rfl⟩, rfl, hresp, rfl⟩

end Client

/-- A client that sends nothing leaves the server with a read that fails. -/
theorem silent_run (client : ClientMain) (mConfig : Config) (fs : FileSystem)
    (hd : client.phase = .done) :
    ∃ n, Agents.Schedule Network.Step [.server] (.connected client mConfig fs) n ∧ n.Finished ∧
      n.client = client ∧ n.fs = fs := by
  have hfail : Session.complete (.accepted mConfig []) (.error 0) fs =
      .next (⟨(TcpConnection.createNew mConfig).finish, []⟩, fs) := rfl
  have hstep : Network.Step .server (.connected client mConfig fs)
      (.idle client ⟨(TcpConnection.createNew mConfig).finish, []⟩ fs) :=
    Network.serverStep_hopeless (n := .connected client mConfig fs) (k := 16) rfl
      (Nat.zero_lt_succ _) hd rfl hfail
  exact ⟨_, .single hstep, ⟨hd, rfl, rfl, rfl⟩, rfl, rfl⟩

section Join
variable {fs fs' : FileSystem} {uuid : UInt64} {cs : List HorcruxData}

/-- The files that a save has created, put together by join.cpp's loop. -/
theorem Saves.joinFiles (h : Saves fs fs' uuid cs) (hout : fs kOutPath = some .directory)
    (hfree : ∀ i, fs (horcruxPath uuid i) = none) (hn : cs.length < 2 ^ 31) :
    joinFiles fs' uuid (.ofNat cs.length) = some (cs.flatMap HorcruxData.mContent) := by
  have hlen : (UInt32.ofNat cs.length).toNat = cs.length :=
    UInt32.toNat_ofNat_of_lt' (Nat.lt_trans hn (by decide))
  have hload : ∀ i ∈ List.range cs.length,
      loadFile fs' (kOutPath ++ [getFileName uuid (Int32.ofNat i)]) =
        some (cs[i]?.elim [] HorcruxData.mContent) := by
    intro i hi
    have hlt := List.mem_range.mp hi
    have hat := h.free hout (List.getElem?_eq_getElem hlt) (hfree _)
    rw [getFileName_eq uuid (Nat.lt_trans hlt hn), ← horcruxPath, loadFile_eq_some, hat,
      List.getElem?_eq_getElem hlt]
    rfl
  have hmap : ((List.range cs.length).map fun i => cs[i]?.elim [] HorcruxData.mContent) =
      cs.map HorcruxData.mContent := by
    apply List.ext_getElem
    · simp
    · intro i hi hi'
      rw [List.length_map] at hi'
      simp [hi']
  rw [Horcrux.joinFiles, hlen]
  apply (Lists.foldlM_append hload []).trans
  rw [List.nil_append, List.flatMap_def, List.flatMap_def, hmap]

end Join

section Pieces
open Client BasicFileSplitter
variable {d : Bytes} {n h : Nat}

theorem stored_of_lt {hcx : HorcruxData} (hl : hcx.mContent.length < 2 ^ 32) :
    (stored hcx).mContent = hcx.mContent := by
  rw [stored, Nat.mod_eq_of_lt hl, List.take_length]

theorem length_inner_piece (hm : hcx ∈ (pieces n h d).dropLast) : hcx.mContent.length ≤ h := by
  rw [pieces, List.dropLast_concat] at hm
  obtain ⟨i, _, rfl⟩ := List.mem_map.mp hm
  simp

/-- The server keeps the pieces as they are, except for what the size of the last one
loses in its field. -/
theorem flatMap_stored_pieces (hh : h < 2 ^ 32) :
    ((pieces n h d).map stored).flatMap HorcruxData.mContent = d.take ((n - 1) * h) ++
      (d.drop ((n - 1) * h)).take ((d.length - (n - 1) * h) % 2 ^ 32) := by
  have hinner : ∀ i, (stored ⟨(d.drop (i * h)).take h, []⟩).mContent = (d.drop (i * h)).take h := by
    intro i
    apply stored_of_lt
    exact Nat.lt_of_le_of_lt (List.length_take_le _ _) hh
  rw [← flatMap_range_pieces d h (n - 1), pieces, List.map_append, List.flatMap_append]
  congr 1
  · simp only [List.map_map, List.flatMap_def, Function.comp_def, hinner]
  · simp [stored]

theorem stored_pieces_eq_iff (hh : h < 2 ^ 32) (hle : (n - 1) * h ≤ d.length) :
    ((pieces n h d).map stored).flatMap HorcruxData.mContent = d ↔
      d.length - (n - 1) * h < 2 ^ 32 := by
  rw [flatMap_stored_pieces hh]
  constructor
  · intro he
    have hlen := congrArg List.length he
    simp only [List.length_append, List.length_take, List.length_drop] at hlen
    omega
  · intro hlt
    rw [Nat.mod_eq_of_lt hlt, ← List.length_drop, List.take_length, List.take_append_drop]

end Pieces

/-- All runs from one start come to the end of any run that has finished. -/
theorem Network.run_ends {start n m : Network} (hm : Agents.Schedule Network.Step as start m)
    (hf : m.Finished) (hn : Agents.Schedule Network.Step bs start n) :
    (∃ cs, as.Perm (bs ++ cs)) ∧ (n.Finished ∨ ∃ a k, Network.Step a n k) ∧
      (n.Finished → n = m) := by
  obtain ⟨cs, hperm, hcs⟩ := Network.independent.descent trivial hm hf.stuck hn
  refine ⟨⟨cs, hperm⟩, ?_, ?_⟩
  · cases hcs with
    | nil => exact .inl hf
    | cons hstep _ => exact .inr ⟨_, _, hstep⟩
  · intro hfn
    cases hcs with
    | nil => rfl
    | cons hstep _ => exact False.elim (hfn.stuck _ _ hstep)

section EndToEnd
open Client BasicFileSplitter

/-- How a run for the file content `d` and the count `N` may end. -/
structure SaveOutcome (fs : FileSystem) (d : Bytes) (N : Nat) (uuid : UInt64) (n : Network) :
    Prop where
  silent : N = 0 ∨ d.length < N → n.client.verdicts = [] ∧ n.fs = fs
  refused : 1 ≤ N → N ≤ d.length → 20 < N ∨ 10000000 < d.length →
    n.client.verdicts = [false] ∧ n.session.conn.responses = [false] ∧ n.fs = fs
  saved : 1 ≤ N → N ≤ d.length → N ≤ 20 → d.length ≤ 10000000 →
    n.client.verdicts = List.replicate (N + 1) true ∧
    (∀ p, n.fs p ≠ fs p → ∃ i < N, p = horcruxPath uuid (.ofNat i)) ∧
    (∃ hs, split (.ofNat N) d = some hs ∧ hs.length = N ∧ ∀ (i : Nat) hcx, hs[i]? = some hcx →
      n.fs (horcruxPath uuid (.ofNat i)) = some (.file hcx.mContent)) ∧
    joinFiles n.fs uuid (.ofNat N) = some d

variable {d : Bytes} {N : Nat} {cfs fs : FileSystem} {path : Path}

theorem connected_of_split (uuid : UInt64) (padding : UInt32 → CharArray 4)
    (hload : loadFile cfs path = some d) (hsplit : split (.ofNat N) d = some hs) :
    ClientMain.connected cfs path (.ofNat N) uuid padding =
      .withHorcruxes uuid padding hs := by
  simp [ClientMain.connected, getHorcruxes, hload, hsplit]

/-- The length of the last piece fits in its field exactly if a share of the file does,
as far as the server accepts the upload. -/
theorem last_piece_lt_iff {n : Nat} (h1 : 1 ≤ N) (h20 : N ≤ 20) (hm : n % 2 ^ 32 ≤ 10000000)
    (hw : (N - 1) * (n / N % 2 ^ 32) < 2 ^ 32) :
    n - (N - 1) * (n / N % 2 ^ 32) < 2 ^ 32 ↔ n / N < 2 ^ 32 := by
  have hdiv := Nat.div_add_mod n N
  have hrem := Nat.mod_lt n h1
  have hshare : N * (n / N) = (N - 1) * (n / N) + n / N := by
    obtain ⟨k, rfl⟩ : ∃ k, N = k + 1 := ⟨N - 1, by omega⟩
    rw [Nat.succ_mul, Nat.add_sub_cancel]
  constructor
  · intro h
    have hle : (N - 1) * (n / N % 2 ^ 32) ≤ (N - 1) * (n / N) :=
      Nat.mul_le_mul_left _ (Nat.mod_le _ _)
    omega
  · intro hq
    rw [Nat.mod_eq_of_lt hq] at hw ⊢
    by_cases h3 : 3 ≤ N
    · have htwo : 2 * (n / N) ≤ (N - 1) * (n / N) := Nat.mul_le_mul_right _ (by omega)
      omega
    · obtain rfl | rfl : N = 1 ∨ N = 2 := by omega
      · omega
      · omega

/-- The server acknowledges everything that the client makes of the file. -/
def Acknowledged (N : Nat) (d : Bytes) : Prop :=
  N ≤ 20 ∧ d.length % 2 ^ 32 ≤ 10000000 ∧ (N - 1) * (d.length / N % 2 ^ 32) < 2 ^ 32

theorem pieces_ne_nil (h1 : 1 ≤ N) (h : Nat) (d : Bytes) : pieces N h d ≠ [] := by
  apply List.ne_nil_of_length_pos
  rw [length_pieces h1]
  exact h1

/-- The run of an upload that is acknowledged throughout. -/
theorem acknowledged_run (uuid : UInt64) (padding : UInt32 → CharArray 4)
    (hload : loadFile cfs path = some d) (h1 : 1 ≤ N) (hl : N ≤ d.length)
    (hack : Acknowledged N d) (hout : fs kOutPath = some .directory)
    (hfree : ∀ i, fs (horcruxPath uuid i) = none) :
    ∃ as n, Agents.Schedule Network.Step as
        (.connected (.connected cfs path (.ofNat N) uuid padding) {} fs) n ∧ n.Finished ∧
      n.client.verdicts = List.replicate (N + 1) true ∧
      Saves fs n.fs uuid ((pieces N (pieceSize N d) d).map stored) ∧
      (joinFiles n.fs uuid (.ofNat N) = some d ↔ d.length / N < 2 ^ 32) := by
  obtain ⟨h20, hmod, hw⟩ := hack
  have hsize : pieceSize N d < 2 ^ 32 := Nat.mod_lt _ (by decide)
  have hlen := length_pieces h1 (pieceSize N d) d
  rw [connected_of_split uuid padding hload (split_defined h1 (by omega) hl hw)]
  obtain ⟨as, n, hrun, hf, hver, hsaves⟩ := client_run {} uuid padding fs
    (pieces_ne_nil h1 (pieceSize N d) d) (by omega) (by rw [hlen]; exact h20)
    (by rw [aggregate_pieces]; exact hmod)
    (fun hcx hm => Nat.lt_of_le_of_lt (length_inner_piece hm) hsize)
  have hjoin := hsaves.joinFiles hout hfree (by rw [List.length_map]; omega)
  rw [List.length_map, hlen] at hjoin
  rw [hlen] at hver
  refine ⟨as, n, hrun, hf, hver, hsaves, ?_⟩
  rw [hjoin, Option.some.injEq, stored_pieces_eq_iff hsize (lastOffset_le N d)]
  exact last_piece_lt_iff h1 h20 hmod hw

/-- One run of client and server to its end. -/
theorem exists_run (uuid : UInt64) (padding : UInt32 → CharArray 4)
    (hload : loadFile cfs path = some d) (hd : d.length < 2 ^ 32) (hN : N < 2 ^ 31)
    (hout : fs kOutPath = some .directory) (hfree : ∀ i, fs (horcruxPath uuid i) = none) :
    ∃ as n, Agents.Schedule Network.Step as
        (.connected (.connected cfs path (.ofNat N) uuid padding) {} fs) n ∧ n.Finished ∧
      SaveOutcome fs d N uuid n ∧ (N = 0 ∨ d.length < N → .client ∉ as) := by
  by_cases hrefuse : N = 0 ∨ d.length < N
  · rw [connected_of_split uuid padding hload (split_refused (by omega) hrefuse)]
    obtain ⟨n, hrun, hf, hc, hfs⟩ := silent_run (.withHorcruxes uuid padding []) {} fs rfl
    refine ⟨_, n, hrun, hf, ⟨fun _ => ⟨by rw [hc]; rfl, hfs⟩, ?_, ?_⟩, by simp⟩
    · omega
    · omega
  · have h1 : 1 ≤ N := by omega
    have hl : N ≤ d.length := by omega
    have hw : (N - 1) * pieceSize N d < 2 ^ 32 := Nat.lt_of_le_of_lt (lastOffset_le N d) hd
    have hlen := length_pieces h1 (pieceSize N d) d
    have hsplit := split_defined h1 hN hl hw
    by_cases hlimit : 20 < N ∨ 10000000 < d.length
    · rw [connected_of_split uuid padding hload hsplit]
      obtain ⟨as, n, hrun, hf, hver, hresp, hfs⟩ := refused_client_run {} uuid padding fs
        (pieces_ne_nil h1 (pieceSize N d) d) (by omega) (by
          rw [hlen, aggregate_pieces, Nat.mod_eq_of_lt hd]
          exact hlimit)
      refine ⟨as, n, hrun, hf, ⟨?_, fun _ _ _ => ⟨hver, hresp, hfs⟩, ?_⟩, ?_⟩
      · omega
      · omega
      · omega
    · have hack : Acknowledged N d := ⟨by omega, by omega, hw⟩
      obtain ⟨as, n, hrun, hf, hver, hsaves, hjoin⟩ :=
        acknowledged_run uuid padding hload h1 hl hack hout hfree
      have hintact := hjoin.mpr (Nat.lt_of_le_of_lt (Nat.div_le_self _ _) hd)
      refine ⟨as, n, hrun, hf, ⟨?_, ?_, fun _ _ _ _ =>
        ⟨hver, ?_, ⟨_, hsplit, hlen, ?_⟩, hintact⟩⟩, ?_⟩
      · omega
      · omega
      · intro p hp
        obtain ⟨i, _, hi, hpath, _⟩ := hsaves.changed hp
        have hlt := (List.getElem?_eq_some_iff.mp hi).1
        rw [List.length_map, hlen] at hlt
        exact ⟨i, hlt, hpath⟩
      · intro i hcx hi
        have hpiece := length_le_aggregate (List.mem_of_getElem? hi)
        rw [aggregate_pieces] at hpiece
        have hstored : ((pieces N (pieceSize N d) d).map stored)[i]? = some (stored hcx) := by
          simp [hi]
        have hat := hsaves.free hout hstored (hfree _)
        rwa [stored_of_lt (by omega)] at hat
      · omega

/-- End-to-end save and rejoin: whatever the order in which client, server and channels
move, every run is bounded, no state of it is a deadlock, and it ends in the one way that
the length of the file and the count determine. -/
theorem save_and_rejoin (uuid : UInt64) (padding : UInt32 → CharArray 4)
    (hload : loadFile cfs path = some d) (hd : d.length < 2 ^ 32) (hN : N < 2 ^ 31)
    (hout : fs kOutPath = some .directory) (hfree : ∀ i, fs (horcruxPath uuid i) = none) :
    ∃ bound, ∀ as n, Agents.Schedule Network.Step as
        (.connected (.connected cfs path (.ofNat N) uuid padding) {} fs) n →
      as.length ≤ bound ∧ (n.Finished ∨ ∃ a m, Network.Step a n m) ∧
      (n.Finished → SaveOutcome fs d N uuid n) ∧
      (N = 0 ∨ d.length < N → .client ∉ as) := by
  obtain ⟨bs, m, hm, hf, hout, hsilent⟩ := exists_run uuid padding hload hd hN hout hfree
  refine ⟨bs.length, fun as n hn => ?_⟩
  obtain ⟨⟨cs, hperm⟩, hmove, hend⟩ := Network.run_ends hm hf hn
  refine ⟨?_, hmove, ?_, ?_⟩
  · rw [hperm.length_eq, List.length_append]
    exact Nat.le_add_right _ _
  · intro hfn
    rw [hend hfn]
    exact hout
  · intro hs hmem
    exact hsilent hs (hperm.mem_iff.mpr (List.mem_append_left _ hmem))

theorem free_outDirectory (uuid : UInt64) (i : UInt32) :
    outDirectory [] (horcruxPath uuid i) = none := by
  simp [outDirectory, horcruxPath, kOutPath]

/-- Two bytes in two pieces: the run ends with both of them saved. -/
theorem save_and_rejoin_sample : ∃ bound, ∀ as n, Agents.Schedule Network.Step as
      (.connected (.connected (fun _ => some (.file [104, 105])) [] (.ofNat 2) 7
        fun _ => zeroPadding) {} (outDirectory [])) n →
    as.length ≤ bound ∧ (n.Finished ∨ ∃ a m, Network.Step a n m) ∧
    (n.Finished → SaveOutcome (outDirectory []) [104, 105] 2 7 n) ∧
    (2 = 0 ∨ 2 < 2 → .client ∉ as) :=
  save_and_rejoin 7 _ rfl (by decide) (by decide) rfl (free_outDirectory 7)

/-- One run for a file of any size, to its end. -/
theorem exists_large_run (uuid : UInt64) (padding : UInt32 → CharArray 4)
    (hload : loadFile cfs path = some d) (h1 : 1 ≤ N) (hl : N ≤ d.length) (hN : N < 2 ^ 32)
    (hout : fs kOutPath = some .directory) (hfree : ∀ i, fs (horcruxPath uuid i) = none) :
    ∃ as n, Agents.Schedule Network.Step as
        (.connected (.connected cfs path (.ofNat N) uuid padding) {} fs) n ∧ n.Finished ∧
      (¬ Acknowledged N d → n.client.verdicts ≠ List.replicate (N + 1) true) ∧
      (Acknowledged N d → n.client.verdicts = List.replicate (N + 1) true ∧
        (joinFiles n.fs uuid (.ofNat N) = some d ↔ d.length / N < 2 ^ 32)) := by
  have hdefined : N ≤ 20 → (N - 1) * (d.length / N % 2 ^ 32) < 2 ^ 32 →
      split (.ofNat N) d = some (pieces N (pieceSize N d) d) :=
    fun h20 hw => split_defined h1 (by omega) hl hw
  cases hsplit : split (.ofNat N) d with
  | none =>
    have hclient : ClientMain.connected cfs path (.ofNat N) uuid padding =
        { padding := padding, phase := .done } := by
      simp [ClientMain.connected, getHorcruxes, hload, hsplit]
    obtain ⟨n, hrun, hf, hc, _⟩ := silent_run
      (.connected cfs path (.ofNat N) uuid padding) {} fs (by rw [hclient])
    refine ⟨_, n, hrun, hf, ?_, ?_⟩
    · intro _
      rw [hc, hclient]
      simp
    · intro hack
      rw [hdefined hack.1 hack.2.2] at hsplit
      cases hsplit
  | some hs =>
    have hlen := split_length h1 hN hl hsplit
    have hne : hs ≠ [] := List.ne_nil_of_length_pos (by omega)
    by_cases hack : Acknowledged N d
    · obtain ⟨as, n, hrun, hf, hver, _, hjoin⟩ :=
        acknowledged_run uuid padding hload h1 hl hack hout hfree
      exact ⟨as, n, hrun, hf, fun hn => False.elim (hn hack), fun _ => ⟨hver, hjoin⟩⟩
    · have hlimit : 20 < hs.length ∨ 10000000 < aggregate hs % 2 ^ 32 := by
        by_contra hn
        have hw : (N - 1) * (d.length / N % 2 ^ 32) < 2 ^ 32 := by
          by_contra hge
          cases (split_undefined h1 hN hl (Nat.le_of_not_lt hge)).symm.trans hsplit
        cases (hdefined (by omega) hw).symm.trans hsplit
        rw [aggregate_pieces] at hn
        exact hack ⟨by omega, by omega, hw⟩
      rw [connected_of_split uuid padding hload hsplit]
      obtain ⟨as, n, hrun, hf, hver, _, _⟩ := refused_client_run {} uuid padding fs hne
        (by omega) hlimit
      refine ⟨as, n, hrun, hf, ?_, fun h => False.elim (hack h)⟩
      intro _
      rw [hver]
      simp [List.replicate_succ]

/-- Acknowledged means intact, unless a share of the file does not fit in 32 bits while
the narrowed sizes pass every check. -/
theorem acknowledged_intact_iff (uuid : UInt64) (padding : UInt32 → CharArray 4)
    (hload : loadFile cfs path = some d) (h1 : 1 ≤ N) (hl : N ≤ d.length) (hN : N < 2 ^ 32)
    (hout : fs kOutPath = some .directory) (hfree : ∀ i, fs (horcruxPath uuid i) = none) :
    (∀ as n, Agents.Schedule Network.Step as
        (.connected (.connected cfs path (.ofNat N) uuid padding) {} fs) n → n.Finished →
      n.client.verdicts = List.replicate (N + 1) true →
      joinFiles n.fs uuid (.ofNat N) = some d) ↔
    (d.length / N < 2 ^ 32 ∨ 20 < N ∨ 10000000 < d.length % 2 ^ 32 ∨
      2 ^ 32 ≤ (N - 1) * (d.length / N % 2 ^ 32)) := by
  obtain ⟨as, m, hm, hf, hno, hyes⟩ := exists_large_run uuid padding hload h1 hl hN hout hfree
  constructor
  · intro h
    by_cases hack : Acknowledged N d
    · obtain ⟨hver, hjoin⟩ := hyes hack
      exact .inl (hjoin.mp (h as m hm hf hver))
    · right
      by_contra hn
      exact hack ⟨by omega, by omega, by omega⟩
  · intro hcond bs n hn hfn hver
    obtain rfl := (Network.run_ends hm hf hn).2.2 hfn
    by_cases hack : Acknowledged N d
    · apply (hyes hack).2.mpr
      obtain ⟨h20, hmod, hw⟩ := hack
      omega
    · exact False.elim (hno hack hver)

theorem acknowledged_intact_sample : ∃ as n, Agents.Schedule Network.Step as
      (.connected (.connected (fun _ => some (.file [104, 105])) [] (.ofNat 2) 7
        fun _ => zeroPadding) {} (outDirectory [])) n ∧ n.Finished ∧
    n.client.verdicts = List.replicate 3 true ∧
    joinFiles n.fs 7 (.ofNat 2) = some [104, 105] := by
  have hload : loadFile (fun _ => some (.file [104, 105])) [] = some [104, 105] := rfl
  have h1 : 1 ≤ 2 := by decide
  have hl : 2 ≤ ([104, 105] : Bytes).length := by decide
  have hN : 2 < 2 ^ 32 := by decide
  obtain ⟨as, n, hrun, hf, _, hyes⟩ := exists_large_run 7 (fun _ => zeroPadding) hload
    h1 hl hN rfl (free_outDirectory 7)
  obtain ⟨hver, _⟩ := hyes ⟨by decide, by decide, by decide⟩
  have hintact := (acknowledged_intact_iff 7 (fun _ => zeroPadding) hload h1 hl hN rfl
    (free_outDirectory 7)).mpr (.inl (by decide))
  exact ⟨as, n, hrun, hf, hver, hintact as n hrun hf hver⟩

/-- A file of 2^32 bytes in one piece: its size is announced as 0, nothing of it is
stored, and both responses are SUCCESS. -/
theorem acknowledged_lost : ¬ ∀ (d : Bytes) (N : Nat) (uuid : UInt64)
    (padding : UInt32 → CharArray 4) (cfs fs : FileSystem) (path : Path),
    loadFile cfs path = some d → 1 ≤ N → N ≤ d.length → N < 2 ^ 32 →
    fs kOutPath = some .directory → (∀ i, fs (horcruxPath uuid i) = none) →
    ∀ as n, Agents.Schedule Network.Step as
        (.connected (.connected cfs path (.ofNat N) uuid padding) {} fs) n → n.Finished →
      n.client.verdicts = List.replicate (N + 1) true →
      joinFiles n.fs uuid (.ofNat N) = some d := by
  intro h
  obtain ⟨d, hd⟩ : ∃ d : Bytes, d.length = 2 ^ 32 :=
    ⟨List.replicate (2 ^ 32) 0, List.length_replicate⟩
  have hload : loadFile (fun _ => some (.file d)) [] = some d := rfl
  obtain ⟨as, n, hrun, hf, _, hyes⟩ := exists_large_run 7 (fun _ => zeroPadding) hload
    (by decide : 1 ≤ 1) (by omega) (by decide) rfl (free_outDirectory 7)
  obtain ⟨hver, hjoin⟩ := hyes ⟨by decide, by rw [hd]; decide, by rw [Nat.sub_self]; omega⟩
  have hlt := hjoin.mp (h d 1 7 _ _ _ _ hload (by decide) (by omega) (by decide) rfl
    (free_outDirectory 7) as n hrun hf hver)
  rw [hd] at hlt
  exact absurd hlt (by decide)

end EndToEnd
end Horcrux
