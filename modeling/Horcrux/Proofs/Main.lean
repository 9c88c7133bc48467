import Horcrux.Main
import Horcrux.Lib.Agents
import Horcrux.Proofs.CommandLine
import Horcrux.Proofs.Feeding
import Horcrux.Proofs.Shipping

namespace Horcrux
open Save Utils

namespace ClientMain
variable {base : ClientMain} {requests : List Request}

/-- The socket calls that main can still make. -/
def callsLeft (c : ClientMain) : Nat :=
  match c.phase with
  | .sendPreRequest => 2 + 3 * c.horcruxes.length
  | .readPreResponse => 1 + 3 * c.horcruxes.length
  | .sendHeader _ rest => 3 + 3 * rest.length
  | .sendContent _ rest => 2 + 3 * rest.length
  | .readResponse rest => 1 + 3 * rest.length
  | .done => 0

theorem callsLeft_sendLoop {c : ClientMain} {requests : List Request}
    (h : c.phase = sendLoop requests) : c.callsLeft = 3 * requests.length := by
  rw [callsLeft, h]
  cases requests with
  | nil => rfl
  | cons r rest =>
    simp only [sendLoop, List.length_cons]
    omega

/-- What a request may leave on the wire, when any write may be cut and the second one may
not come to pass. -/
def Fragment (padding : UInt32 → CharArray 4) (bytes : Bytes) (r : Request) : Prop :=
  ∃ header content, header <+: (serializeHeader r.mHeader (padding r.mHeader.mIndex)).val ∧
    content <+: r.mContent ∧ bytes = header ++ content

/-- The requests of `front` have left their fragments on the wire, in their order and behind a
part of the pre-request. -/
def Left (base : ClientMain) (front : List Request) (w : Bytes) : Prop :=
  ∃ p parts, p <+: (serializeHeader base.preRequestHeader noPadding).val ∧
    List.Forall₂ (Fragment base.padding) parts front ∧ w = p ++ parts.flatten

theorem Left.nil (hp : p <+: (serializeHeader base.preRequestHeader noPadding).val) :
    Left base [] p :=
  ⟨p, [], hp, .nil, by simp⟩

theorem Left.concat (h : Left base front w) (hr : Fragment base.padding bytes r) :
    Left base (front ++ [r]) (w ++ bytes) := by
  obtain ⟨p, parts, hp, hparts, rfl⟩ := h
  exact ⟨p, parts ++ [bytes], hp, List.rel_append hparts (.cons hr .nil), by simp⟩

/-- Where main can stand, and what is on the wire then. -/
inductive Underway (base : ClientMain) (requests : List Request) : ClientMain × Bytes → Prop
  | opening : Underway base requests ({ base with phase := .sendPreRequest, verdicts := [] }, [])
  | waiting (hw : w <+: (serializeHeader base.preRequestHeader noPadding).val) :
      Underway base requests ({ base with phase := .readPreResponse, verdicts := [] }, w)
  | header (hr : requests = front ++ r :: rest) (hw : Left base front w)
      (hv : v.head? = some true) :
      Underway base requests ({ base with phase := .sendHeader r rest, verdicts := v }, w)
  | content (hr : requests = front ++ r :: rest) (hw : Left base front w)
      (hb : b <+: (serializeHeader r.mHeader (base.padding r.mHeader.mIndex)).val)
      (hv : v.head? = some true) :
      Underway base requests ({ base with phase := .sendContent r rest, verdicts := v }, w ++ b)
  | response (hr : requests = front ++ rest) (hw : Left base front w) (hv : v.head? = some true) :
      Underway base requests ({ base with phase := .readResponse rest, verdicts := v }, w)
  | done (hr : requests = front ++ rest) (hw : Left base front w)
      (hv : front ≠ [] → v.head? = some true) :
      Underway base requests ({ base with phase := .done, verdicts := v }, w)

/-- The head of the send loop, with the requests of `front` behind it. -/
theorem Underway.loop (hr : requests = front ++ rest) (hw : Left base front w)
    (hv : v.head? = some true) :
    Underway base requests ({ base with phase := sendLoop rest, verdicts := v }, w) := by
  cases rest with
  | nil => exact .done hr hw fun _ => hv
  | cons r rest => exact .header hr hw hv

/-- Nothing of the requests is sent. -/
theorem Underway.given_up (hw : w <+: (serializeHeader base.preRequestHeader noPadding).val)
    (v : List Bool) : Underway base requests ({ base with phase := .done, verdicts := v }, w) :=
  .done (List.nil_append _).symm (.nil hw) fun h => absurd rfl h

theorem head?_concat (hv : v.head? = some true) (b : Bool) : (v ++ [b]).head? = some true := by
  rw [List.head?_append, hv]
  rfl

theorem Underway.step (hreq : requests =
      Request.fromHorcruxes base.preRequestHeader.mUuid base.horcruxes)
    (h : Underway base requests x) (hs : Attempt result x y) : Underway base requests y := by
  cases h with
  | opening =>
    cases hs with
    | wrote hb ht =>
      cases hb
      exact .waiting (List.take_prefix _ _)
    | writeError hb => exact .given_up List.nil_prefix []
    | read hr => cases hr
    | readError hr => cases hr
  | waiting hw =>
    cases hs with
    | wrote hb => cases hb
    | writeError hb => cases hb
    | read hr hne hl =>
      rename_i bytes
      cases hb : Horcrux.readResponse bytes with
      | true =>
        simp only [resume, hb, if_true, ← hreq]
        exact .loop (List.nil_append _).symm (.nil hw) (by rfl)
      | false =>
        simp only [resume, hb]
        exact .given_up hw _
    | readError hr => exact .given_up hw []
  | header hr hw hv =>
    cases hs with
    | wrote hb ht =>
      cases hb
      exact .content hr hw (List.take_prefix _ _) hv
    | writeError hb =>
      refine .loop (hr.trans (List.append_cons _ _ _)) ?_ hv
      simpa using hw.concat ⟨[], [], List.nil_prefix, List.nil_prefix, rfl⟩
    | read hr => cases hr
    | readError hr => cases hr
  | content hr hw hb hv =>
    cases hs with
    | wrote hc ht =>
      cases hc
      refine .response (hr.trans (List.append_cons _ _ _)) ?_ hv
      rw [List.append_assoc]
      exact hw.concat ⟨_, _, hb, List.take_prefix _ _, rfl⟩
    | writeError hc =>
      refine .loop (hr.trans (List.append_cons _ _ _)) ?_ hv
      exact hw.concat ⟨_, [], hb, List.nil_prefix, by simp⟩
    | read hr => cases hr
    | readError hr => cases hr
  | response hr hw hv =>
    cases hs with
    | wrote hb => cases hb
    | writeError hb => cases hb
    | read _ => exact .loop hr hw (head?_concat hv _)
    | readError _ => exact .done hr hw fun _ => hv
  | done hr hw hv =>
    cases hs with
    | wrote hb => cases hb
    | writeError hb => cases hb
    | read hr => cases hr
    | readError hr => cases hr

theorem callsLeft_wrote {c : ClientMain} (hb : c.buffer = some b) (k : Nat) :
    (c.resume (.wrote k)).callsLeft < c.callsLeft := by
  obtain ⟨horcruxes, pre, padding, phase, verdicts⟩ := c
  cases phase with
  | sendPreRequest | sendHeader _ _ | sendContent _ _ => simp [resume, callsLeft]
  | readPreResponse | readResponse _ | done => cases hb

theorem callsLeft_writeError {c : ClientMain} (hb : c.buffer = some b) :
    (c.resume .writeError).callsLeft < c.callsLeft := by
  obtain ⟨horcruxes, pre, padding, phase, verdicts⟩ := c
  cases phase with
  | sendPreRequest =>
    simp only [resume, callsLeft]
    omega
  | sendHeader _ _ | sendContent _ _ =>
    rw [callsLeft_sendLoop rfl, callsLeft]
    dsimp only
    omega
  | readPreResponse | readResponse _ | done => cases hb

theorem callsLeft_read {c : ClientMain} (hr : c.reading = true) (bytes : Bytes) :
    (c.resume (.read bytes)).callsLeft < c.callsLeft := by
  obtain ⟨horcruxes, pre, padding, phase, verdicts⟩ := c
  cases phase with
  | readPreResponse =>
    cases hb : Horcrux.readResponse bytes with
    | true =>
      have hloop : (resume ⟨horcruxes, pre, padding, .readPreResponse, verdicts⟩
          (.read bytes)).phase = sendLoop (Request.fromHorcruxes pre.mUuid horcruxes) := by
        simp [resume, hb]
      rw [callsLeft_sendLoop hloop, length_fromHorcruxes, callsLeft]
      dsimp only
      omega
    | false =>
      simp only [resume, hb, callsLeft]
      simp
  | readResponse rest =>
    rw [callsLeft_sendLoop rfl, callsLeft]
    dsimp only
    omega
  | sendPreRequest | sendHeader _ _ | sendContent _ _ | done => cases hr

theorem callsLeft_readError {c : ClientMain} (hr : c.reading = true) :
    (c.resume .readError).callsLeft < c.callsLeft := by
  obtain ⟨horcruxes, pre, padding, phase, verdicts⟩ := c
  cases phase with
  | readPreResponse | readResponse _ => simp [resume, callsLeft]
  | sendPreRequest | sendHeader _ _ | sendContent _ _ | done => cases hr

/-- Every socket call is one less to make, whatever comes of it. -/
theorem Attempt.callsLeft_lt (h : Attempt result x y) : y.1.callsLeft < x.1.callsLeft := by
  cases h with
  | wrote hb ht => exact callsLeft_wrote hb _
  | writeError hb => exact callsLeft_writeError hb
  | read hr _ _ => exact callsLeft_read hr _
  | readError hr => exact callsLeft_readError hr

theorem run_callsLeft (h : Agents.Schedule Attempt results x y) :
    results.length + y.1.callsLeft ≤ x.1.callsLeft := by
  induction h with
  | nil => simp
  | cons hs _ ih =>
    have hlt := hs.callsLeft_lt
    rw [List.length_cons]
    omega

/-- Main waits for nothing but its socket. -/
theorem exists_attempt (c : ClientMain) (w : Bytes) (hd : c.phase ≠ .done) :
    ∃ result y, Attempt result (c, w) y := by
  obtain ⟨horcruxes, pre, padding, phase, verdicts⟩ := c
  cases phase with
  | sendPreRequest | sendHeader _ _ | sendContent _ _ => exact ⟨_, _, .writeError rfl⟩
  | readPreResponse | readResponse _ => exact ⟨_, _, .readError rfl⟩
  | done => exact absurd rfl hd

theorem Underway.left (h : Underway base requests x) : ∃ front rest, requests = front ++ rest ∧
    Left base front x.2 ∧ (front ≠ [] → x.1.verdicts.head? = some true) := by
  cases h with
  | opening => exact ⟨[], _, rfl, .nil List.nil_prefix, fun h => absurd rfl h⟩
  | waiting hw => exact ⟨[], _, rfl, .nil hw, fun h => absurd rfl h⟩
  | header hr hw hv => exact ⟨_, _, hr, hw, fun _ => hv⟩
  | content hr hw hb hv =>
    exact ⟨_, _, hr.trans (List.append_cons _ _ _),
      hw.concat ⟨_, [], hb, List.nil_prefix, by simp⟩, fun _ => hv⟩
  | response hr hw hv => exact ⟨_, _, hr, hw, fun _ => hv⟩
  | done hr hw hv => exact ⟨_, _, hr, hw, hv⟩

theorem Underway.run (hreq : requests =
      Request.fromHorcruxes base.preRequestHeader.mUuid base.horcruxes)
    (h : Underway base requests x) (hs : Agents.Schedule Attempt results x y) :
    Underway base requests y :=
  hs.keeps (P := Underway base requests) (fun _ _ _ _ hx hstep => hx.step hreq hstep) h

end ClientMain

section Main
variable {fs : FileSystem} {toPath : Bytes → Path} {connects : Bool} {uuid : UInt64}
  {padding : UInt32 → CharArray 4} {argc : Int32} {argv : Nat → CString} {c c' : ClientMain}

/-- Main gets to its socket only with the horcruxes of the file that it was told to save. -/
theorem clientMain_ok (h : clientMain fs toPath connects uuid padding argc argv = .ok c) :
    ∃ options, parseHorcruxCommand argc argv = .ok (.ok options) ∧
      getHorcruxes fs (toPath options.mInputPath) options.mHorcruxCount = some c.horcruxes ∧
      c.horcruxes ≠ [] ∧ c = .withHorcruxes uuid padding c.horcruxes := by
  unfold clientMain at h
  split at h
  · cases h
  · cases h
  · rename_i options hparse
    split at h
    · cases h
    · split at h
      · cases h
      · rename_i horcruxes hget
        split at h
        · cases h
        · rename_i hne
          cases h
          have hne' : horcruxes ≠ [] := by simpa using hne
          rw [ClientMain.withHorcruxes_of_ne_nil uuid padding hne']
          exact ⟨options, hparse, hget, hne',
            (ClientMain.withHorcruxes_of_ne_nil uuid padding hne').symm⟩

/-- Whatever the socket does to the client, with short writes, errors and any answer at all:
it makes at most two calls and three for each horcrux, and waits for nothing but its socket.
On the wire are a part of its pre-request and then, in their order and each once, parts of
the header and of the content of its first requests; and of these there are none before
it has read a SUCCESS. -/
theorem client_wire (hm : clientMain fs toPath connects uuid padding argc argv = .ok c)
    (h : Agents.Schedule ClientMain.Attempt results (c, []) (c', w)) :
    (∃ options, parseHorcruxCommand argc argv = .ok (.ok options) ∧
      getHorcruxes fs (toPath options.mInputPath) options.mHorcruxCount = some c.horcruxes) ∧
    results.length ≤ 2 + 3 * c.horcruxes.length ∧
    (c'.phase = .done ∨ ∃ result y, ClientMain.Attempt result (c', w) y) ∧
    ∃ front rest, Request.fromHorcruxes uuid c.horcruxes = front ++ rest ∧ c.Left front w ∧
      (front ≠ [] → c'.verdicts.head? = some true) := by
  obtain ⟨options, hparse, hget, hne, hc⟩ := clientMain_ok hm
  rw [ClientMain.withHorcruxes_of_ne_nil uuid padding hne] at hc
  refine ⟨⟨options, hparse, hget⟩, ?_, ?_, ?_⟩
  · have hcalls := ClientMain.run_callsLeft h
    rw [show c.callsLeft = 2 + 3 * c.horcruxes.length by rw [ClientMain.callsLeft, hc]] at hcalls
    omega
  · by_cases hd : c'.phase = .done
    · exact .inl hd
    · exact .inr (ClientMain.exists_attempt c' w hd)
  · have hstart : ClientMain.Underway c (Request.fromHorcruxes uuid c.horcruxes) (c, []) := by
      have hopening : ClientMain.Underway c (Request.fromHorcruxes uuid c.horcruxes)
          ({ c with phase := .sendPreRequest, verdicts := [] }, []) := .opening
      rwa [show { c with phase := .sendPreRequest, verdicts := [] } = c by rw [hc]] at hopening
    have huuid : c.preRequestHeader.mUuid = uuid := by
      rw [hc, PreRequestHeader.fromHorcruxes_eq]
    exact (hstart.run (by rw [huuid]) h).left

/-- Two bytes as one horcrux: the pre-request goes out whole, the server accepts it, and the
first call for the header takes ten of its bytes. -/
theorem client_wire_sample : ∃ c c' w,
    clientMain (fun _ => some (.file [104, 105])) (fun _ => []) true 7 (fun _ => zeroPadding) 5
        (saveArgv ⟨chars "1", by decide⟩) = .ok c ∧
      Agents.Schedule ClientMain.Attempt [.wrote 16, .read (response true), .wrote 10] (c, [])
        (c', w) ∧
      (∃ options, parseHorcruxCommand 5 (saveArgv ⟨chars "1", by decide⟩) = .ok (.ok options) ∧
        getHorcruxes (fun _ => some (.file [104, 105])) [] options.mHorcruxCount =
          some c.horcruxes) ∧
      3 ≤ 2 + 3 * c.horcruxes.length ∧
      (c'.phase = .done ∨ ∃ result y, ClientMain.Attempt result (c', w) y) ∧
      ∃ front rest, Request.fromHorcruxes 7 c.horcruxes = front ++ rest ∧ c.Left front w ∧
        (front ≠ [] → c'.verdicts.head? = some true) := by
  have hm : clientMain (fun _ => some (.file [104, 105])) (fun _ => []) true 7
      (fun _ => zeroPadding) 5 (saveArgv ⟨chars "1", by decide⟩) =
      .ok (.withHorcruxes 7 (fun _ => zeroPadding) [⟨[104, 105], []⟩]) := rfl
  have hrun : ∃ c' w, Agents.Schedule ClientMain.Attempt
      [.wrote 16, .read (response true), .wrote 10]
      (.withHorcruxes 7 (fun _ => zeroPadding) [⟨[104, 105], []⟩], []) (c', w) :=
    ⟨_, _, .cons (.wrote rfl ⟨by decide, by decide⟩) (.cons (.read rfl (by decide) (by decide))
      (.cons (.wrote rfl ⟨by decide, by decide⟩) .nil))⟩
  obtain ⟨c', w, h⟩ := hrun
  exact ⟨_, _, _, hm, h, client_wire hm h⟩

end Main
end Horcrux
