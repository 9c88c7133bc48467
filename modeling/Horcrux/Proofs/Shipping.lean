import Horcrux.Client
import Horcrux.Lib.Agents
import Horcrux.Proofs.Requests

namespace Horcrux
open Save Utils

theorem length_response (outcome : Bool) : (response outcome).length = 7 := by
  cases outcome <;> rfl

theorem readResponse_iff {bytes : Bytes} : readResponse bytes = true ↔ bytes = response true :=
  decide_eq_true_iff

namespace ClientMain
variable {c c' : ClientMain} {calls : List SocketCall}

/-- The buffers that the calls were given. -/
def buffers : List SocketCall → List Bytes
  | [] => []
  | .writeSome b _ :: calls => b :: buffers calls
  | .readSome :: calls => buffers calls

/-- Every call has transferred its whole buffer. -/
def Whole (calls : List SocketCall) : Prop := ∀ b k, .writeSome b k ∈ calls → k = b.length

/-- The two buffers of a request. -/
def shipment (padding : UInt32 → CharArray 4) (request : Request) : List Bytes :=
  [(serializeHeader request.mHeader (padding request.mHeader.mIndex)).val, request.mContent]

/-- The buffers that main has still to write when every response is SUCCESS. -/
def outstanding (c : ClientMain) : List Bytes :=
  match c.phase with
  | .sendPreRequest => (serializeHeader c.preRequestHeader noPadding).val ::
      (Request.fromHorcruxes c.preRequestHeader.mUuid c.horcruxes).flatMap (shipment c.padding)
  | .readPreResponse =>
    (Request.fromHorcruxes c.preRequestHeader.mUuid c.horcruxes).flatMap (shipment c.padding)
  | .sendHeader request rest => (request :: rest).flatMap (shipment c.padding)
  | .sendContent request rest => request.mContent :: rest.flatMap (shipment c.padding)
  | .readResponse rest => rest.flatMap (shipment c.padding)
  | .done => []

theorem withHorcruxes_of_ne_nil (uuid : UInt64) (padding : UInt32 → CharArray 4)
    {horcruxes : List HorcruxData} (hn : horcruxes ≠ []) :
    withHorcruxes uuid padding horcruxes =
      { horcruxes := horcruxes, preRequestHeader := .fromHorcruxes uuid horcruxes,
        padding := padding, phase := .sendPreRequest } := by
  simp [withHorcruxes, hn]

theorem outstanding_sendLoop (requests : List Request) :
    { c with phase := sendLoop requests }.outstanding = requests.flatMap (shipment c.padding) := by
  cases requests <;> rfl

theorem readResponse_success : readResponse (response true) = true := readResponse_iff.mpr rfl

/-- A call takes its buffer, and nothing else, off what is outstanding. -/
theorem Call.outstanding {call : SocketCall} (h : Call call c c') :
    c.outstanding = buffers [call] ++ c'.outstanding := by
  obtain ⟨horcruxes, pre, padding, phase, verdicts⟩ := c
  cases h with
  | writeSome hb ht =>
    cases phase with
    | sendPreRequest | sendHeader request rest | sendContent request rest =>
      cases hb
      rfl
    | readPreResponse | readResponse rest | done => cases hb
  | readSome hr =>
    cases phase with
    | sendPreRequest | sendHeader request rest | sendContent request rest | done => cases hr
    | readPreResponse =>
      simp only [resume, readResponse_success, ↓reduceIte]
      exact (outstanding_sendLoop _).symm
    | readResponse rest => exact (outstanding_sendLoop rest).symm

theorem run_outstanding (h : Agents.Schedule Call calls c c') :
    c.outstanding = buffers calls ++ c'.outstanding := by
  induction h with
  | nil => rfl
  | @cons call c₁ c₂ calls c₃ hcall _ ih =>
    rw [hcall.outstanding, ih, ← List.append_assoc]
    congr 1
    cases call <;> rfl

theorem run_transfers (h : Agents.Schedule Call calls c c') :
    ∀ b k, .writeSome b k ∈ calls → k ≤ b.length := by
  induction h with
  | nil => simp
  | cons hcall _ ih =>
    intro b k hm
    rcases List.mem_cons.mp hm with he | hm
    · subst he
      cases hcall with
      | writeSome _ ht => exact ht.1
    · exact ih b k hm

theorem wire_length_le (h : ∀ b k, .writeSome b k ∈ calls → k ≤ b.length) :
    (wire calls).length ≤ (buffers calls).flatten.length := by
  induction calls with
  | nil => simp [wire]
  | cons call calls ih =>
    have ih := ih fun b k hm => h b k (List.mem_cons_of_mem _ hm)
    cases call with
    | readSome => exact ih
    | writeSome b k =>
      have hk := h b k List.mem_cons_self
      simp only [wire, buffers, List.flatten_cons, List.length_append, List.length_take]
      omega

/-- What is on the wire is what was meant to be there exactly when no write was short. -/
theorem wire_eq_iff (h : ∀ b k, .writeSome b k ∈ calls → k ≤ b.length) :
    wire calls = (buffers calls).flatten ↔ Whole calls := by
  induction calls with
  | nil => simp [wire, buffers, Whole]
  | cons call calls ih =>
    have hrest : ∀ b k, .writeSome b k ∈ calls → k ≤ b.length :=
      fun b k hm => h b k (List.mem_cons_of_mem _ hm)
    cases call with
    | readSome =>
      rw [wire, buffers, ih hrest]
      simp [Whole]
    | writeSome b k =>
      have hk := h b k List.mem_cons_self
      have hle := wire_length_le hrest
      have hwhole : Whole (.writeSome b k :: calls) ↔ k = b.length ∧ Whole calls := by
        simp only [Whole, List.mem_cons, SocketCall.writeSome.injEq]
        constructor
        · intro hw
          exact ⟨hw b k (.inl ⟨rfl, rfl⟩), fun b' k' hm => hw b' k' (.inr hm)⟩
        · rintro ⟨he, hw⟩ b' k' (⟨rfl, rfl⟩ | hm)
          · exact he
          · exact hw b' k' hm
      rw [hwhole, ← ih hrest, wire, buffers, List.flatten_cons]
      constructor
      · intro he
        have hlen := congrArg List.length he
        simp only [List.length_append, List.length_take] at hlen
        have hkb : k = b.length := by omega
        subst hkb
        rw [List.take_length] at he
        exact ⟨rfl, List.append_cancel_left he⟩
      · intro hw
        rw [hw.1, List.take_length, hw.2]

/-- The byte stream that the client means to send. -/
def stream (uuid : UInt64) (padding : UInt32 → CharArray 4) (horcruxes : List HorcruxData) :
    Bytes :=
  (serializeHeader (PreRequestHeader.fromHorcruxes uuid horcruxes) noPadding).val ++
    (Request.fromHorcruxes uuid horcruxes).flatMap fun request =>
      (serializeHeader request.mHeader (padding request.mHeader.mIndex)).val ++ request.mContent

theorem flatten_shipment (padding : UInt32 → CharArray 4) (requests : List Request) :
    (requests.flatMap (shipment padding)).flatten = requests.flatMap fun request =>
      (serializeHeader request.mHeader (padding request.mHeader.mIndex)).val ++
        request.mContent := by
  induction requests with
  | nil => rfl
  | cons request requests ih => simp [List.flatMap_cons, shipment, ih]

/-- At its start the client has its whole stream outstanding. -/
theorem outstanding_withHorcruxes (uuid : UInt64) (padding : UInt32 → CharArray 4)
    {horcruxes : List HorcruxData} (hn : horcruxes ≠ []) :
    (withHorcruxes uuid padding horcruxes).outstanding.flatten =
      stream uuid padding horcruxes := by
  rw [withHorcruxes_of_ne_nil uuid padding hn, outstanding, stream, List.flatten_cons,
    flatten_shipment]
  simp only [PreRequestHeader.fromHorcruxes_eq]

/-- The client's byte stream is complete exactly when no `write_some` was short: what a
call returns is only logged, and the rest of its buffer never sent. -/
theorem stream_complete_iff (uuid : UInt64) (padding : UInt32 → CharArray 4)
    (horcruxes : List HorcruxData)
    (h : Agents.Schedule Call calls (withHorcruxes uuid padding horcruxes) c)
    (hd : c.phase = .done) :
    (horcruxes = [] → calls = []) ∧
    (horcruxes ≠ [] → (wire calls = stream uuid padding horcruxes ↔ Whole calls)) := by
  constructor
  · intro he
    subst he
    cases h with
    | nil => rfl
    | cons hcall _ =>
      cases hcall with
      | writeSome hb _ => cases hb
      | readSome hr => cases hr
  · intro hn
    have hall := run_outstanding h
    have hdone : c.outstanding = [] := by simp [outstanding, hd]
    rw [hdone, List.append_nil] at hall
    rw [← outstanding_withHorcruxes uuid padding hn, hall]
    exact wire_eq_iff (run_transfers h)

/-- The calls of a client with one horcrux, where the pre-request takes `k` bytes. -/
def sampleCalls (k : Nat) : List SocketCall :=
  [.writeSome (serializeHeader (⟨7, 2, 1⟩ : PreRequestHeader) noPadding).val k, .readSome,
    .writeSome (serializeHeader (⟨7, 0, 2, 0⟩ : Request.Header) zeroPadding).val 24,
    .writeSome [104, 105] 2, .readSome]

/-- A client with one horcrux, and zeros in the padding. -/
def sampleClient : ClientMain :=
  withHorcruxes 7 (fun _ => zeroPadding) [⟨[104, 105], []⟩]

theorem sample_run (hk : 1 ≤ k ∧ k ≤ 16) :
    ∃ c, Agents.Schedule Call (sampleCalls k) sampleClient c ∧ c.phase = .done := by
  refine ⟨_, .cons (.writeSome rfl ⟨hk.2, fun _ => hk.1⟩) (.cons (.readSome rfl)
    (.cons (.writeSome rfl ⟨by decide, by decide⟩)
    (.cons (.writeSome rfl ⟨by decide, by decide⟩) (.cons (.readSome rfl) .nil)))), rfl⟩

theorem stream_complete_sample : ∃ c, Agents.Schedule Call (sampleCalls 16) sampleClient c ∧
    wire (sampleCalls 16) = stream 7 (fun _ => zeroPadding) [⟨[104, 105], []⟩] := by
  obtain ⟨c, hrun, hd⟩ := sample_run (k := 16) (by decide)
  have hw : Whole (sampleCalls 16) := by
    intro b k hm
    simp only [sampleCalls, List.mem_cons, SocketCall.writeSome.injEq, reduceCtorEq,
      List.not_mem_nil, or_false, false_or] at hm
    rcases hm with ⟨rfl, rfl⟩ | ⟨rfl, rfl⟩ | ⟨rfl, rfl⟩ <;> rfl
  exact ⟨c, hrun, ((stream_complete_iff _ _ _ hrun hd).2 (by decide)).mpr hw⟩

theorem stream_cut_short : ¬ ∀ (uuid : UInt64) (padding : UInt32 → CharArray 4)
    (horcruxes : List HorcruxData) (calls : List SocketCall) (c : ClientMain), horcruxes ≠ [] →
    Agents.Schedule Call calls (withHorcruxes uuid padding horcruxes) c → c.phase = .done →
    wire calls = stream uuid padding horcruxes := by
  intro h
  obtain ⟨c, hrun, hd⟩ := sample_run (k := 1) (by decide)
  exact absurd (h _ _ _ _ c (by decide) hrun hd) (by decide)

end ClientMain
end Horcrux
