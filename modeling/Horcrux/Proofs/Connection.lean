import Horcrux.Proofs.Files
import Horcrux.Proofs.Situation

namespace Horcrux
open Save Utils

/-- The outcomes of the responses that a trace issues, oldest first. The first one
answers the pre-request. -/
def responsesOf : List Event → List Bool
  | [] => []
  | .started (.sendResponse outcome _) :: trace => outcome :: responsesOf trace
  | _ :: trace => responsesOf trace

namespace TcpConnection

def responses (c : TcpConnection) : List Bool := responsesOf c.trace

/-- The pre-request was answered with SUCCESS. -/
def Accepted (c : TcpConnection) : Prop := c.responses.head? = some true

/-- How many slots hold a horcrux. -/
def filled (c : TcpConnection) : Nat := c.mCurrentRequestHorcruxes.countP Option.isSome

end TcpConnection

section
variable {mConfig : Config} {stream : Bytes} {c : TcpConnection} {u : Upload mConfig}
  {s s' : Session}

theorem responsesOf_append (xs ys : List Event) :
    responsesOf (xs ++ ys) = responsesOf xs ++ responsesOf ys := by
  induction xs with
  | nil => rfl
  | cons x xs ih =>
    cases x with
    | saved => simpa [responsesOf] using ih
    | started op => cases op <;> simpa [responsesOf] using ih

theorem responsesOf_received (k : Nat) :
    responsesOf (receivedTrace k) = List.replicate (k + 1) true := by
  induction k with
  | zero => rfl
  | succ k ih =>
    rw [receivedTrace, responsesOf_append, ih, List.replicate_succ' (n := k + 1)]
    rfl

theorem responsesOf_complete (k : Nat) :
    responsesOf (completeTrace k) = List.replicate (k + 2) true := by
  rw [completeTrace, responsesOf_append, responsesOf_received, List.replicate_succ' (n := k + 1)]
  rfl

theorem Slots.countP_isSome {α : Type} (slots : List (Option α)) :
    slots.countP Option.isSome = Slots.total (fun _ => 1) slots := by
  induction slots with
  | nil => rfl
  | cons slot slots ih =>
    simp only [Slots.total] at ih
    cases slot <;> simp [Slots.total, ih, Nat.add_comm]

theorem TcpConnection.Receives.filled (hr : c.Receives u) : c.filled = u.messages.length := by
  rw [TcpConnection.filled, Slots.countP_isSome, hr.slots, Upload.slots]
  refine (u.fits.total_fill _).trans ?_
  simp [Function.comp_def]

/-- A connection either has not accepted a pre-request and holds nothing, or holds an
upload and has answered each of its messages with SUCCESS. -/
theorem Situation.upload (h : Situation mConfig stream s) :
    (s.conn.mCurrentRequestHorcruxes = [] ∧ (s.conn.responses = [] ∨ s.conn.responses = [false])) ∨
    ∃ (u : Upload mConfig) (rest : Bytes), s.conn.Receives u ∧ stream = u.bytes ++ rest ∧
      (s.conn.responses = List.replicate (u.messages.length + 1) true ∨
        s.conn.responses = List.replicate (u.messages.length + 1) true ++ [false]) := by
  cases h with
  | fresh => exact .inl ⟨rfl, .inl rfl⟩
  | lost hs hp ht => exact .inl ⟨hs, .inl (by simp [TcpConnection.responses, ht, responsesOf])⟩
  | refused pre hx hs hp ht =>
    exact .inl ⟨hs, .inr (by simp [TcpConnection.responses, ht, responsesOf])⟩
  | answering u hr hn hx hp ht =>
    refine .inr ⟨u, _, hr, hx, .inl ?_⟩
    rw [TcpConnection.responses, ht, responsesOf_received]
  | listening u hr hn hx hp ht =>
    refine .inr ⟨u, _, hr, hx, .inl ?_⟩
    simp [TcpConnection.responses, ht, responsesOf_append, responsesOf_received, responsesOf]
  | reading u header hr ha hx hh hb hp ht =>
    refine .inr ⟨u, _, hr, hx, .inl ?_⟩
    simp [TcpConnection.responses, ht, responsesOf_append, responsesOf_received, responsesOf]
  | cut u hr hn hp hx ht =>
    obtain ⟨rest, hx⟩ := hx
    refine .inr ⟨u, rest, hr, hx, .inl ?_⟩
    rcases ht with ht | ht <;>
      simp [TcpConnection.responses, ht, responsesOf_append, responsesOf_received, responsesOf]
  | rejected u header hr hn ha hx hp ht =>
    refine .inr ⟨u, _, hr, hx, .inr ?_⟩
    simp [TcpConnection.responses, ht, responsesOf_append, responsesOf_received, responsesOf]
  | complete u hr hc hx hp ht =>
    refine .inr ⟨u, _, hr, hx, .inl ?_⟩
    obtain ⟨hl, hpos⟩ := hc
    rw [TcpConnection.responses, ht, responsesOf_complete, hl]
    congr 1
    omega
  | saved u hr hc hx hp ht =>
    refine .inr ⟨u, _, hr, hx, .inl ?_⟩
    obtain ⟨hl, hpos⟩ := hc
    have he : u.count - 1 + 2 = u.messages.length + 1 := by omega
    simp [TcpConnection.responses, ht, responsesOf_append, responsesOf_complete, he, responsesOf]

theorem Situation.accepted_upload (h : Situation mConfig stream s) (ha : s.conn.Accepted) :
    ∃ u : Upload mConfig, s.conn.Receives u := by
  rcases h.upload with ⟨_, he | he⟩ | ⟨u, rest, hr, _⟩
  · simp [TcpConnection.Accepted, he] at ha
  · simp [TcpConnection.Accepted, he] at ha
  · exact ⟨u, hr⟩

/-- The filled slots are counted by the responses after the first one. -/
theorem Situation.filled_eq (h : Situation mConfig stream s) :
    s.conn.filled = s.conn.responses.tail.count true := by
  rcases h.upload with ⟨hs, he | he⟩ | ⟨u, rest, hr, _, he | he⟩
  · simp [TcpConnection.filled, hs, he]
  · simp [TcpConnection.filled, hs, he]
  · simp [hr.filled, he]
  · rw [hr.filled, he, List.replicate_succ, List.cons_append, List.tail_cons]
    simp

/-- What a connection must have gone through for the operation to be pending. -/
def Session.Pending (mConfig : Config) (stream : Bytes) (s : Session) : AsyncOp → Prop
  | .readPreRequestHeader => s = .accepted mConfig stream
  | .readRequestHeader => ∃ u : Upload mConfig, s.conn.Receives u ∧ ¬ u.Complete ∧
      stream = u.bytes ++ s.unread
  | .readRequestContent => ∃ (u : Upload mConfig) (header : CharArray 24), s.conn.Receives u ∧
      u.Admits (deserializeHeader header) ∧ stream = u.bytes ++ (header.val ++ s.unread) ∧
      s.conn.mRequestHeader = deserializeHeader header
  | .sendResponse true .readRequestHeader => ∃ u : Upload mConfig, s.conn.Receives u ∧
      ¬ u.Complete ∧ stream = u.bytes ++ s.unread ∧ s.conn.Accepted
  | .sendResponse true .saveHorcruxes => ∃ u : Upload mConfig, s.conn.Receives u ∧
      u.Complete ∧ stream = u.bytes ++ s.unread ∧ s.conn.Accepted
  | .sendResponse false .nothing => True
  | .sendResponse _ _ => False

theorem Situation.pending (h : Situation mConfig stream s) (hp : s.conn.pending = some op) :
    s.Pending mConfig stream op := by
  cases h with
  | fresh =>
    cases hp
    exact rfl
  | answering u hr hn hx hp' ht =>
    cases hp'.symm.trans hp
    refine ⟨u, hr, hn, hx, ?_⟩
    simp [TcpConnection.Accepted, TcpConnection.responses, ht, responsesOf_received,
      List.replicate_succ]
  | listening u hr hn hx hp' ht =>
    cases hp'.symm.trans hp
    exact ⟨u, hr, hn, hx⟩
  | reading u header hr ha hx hh hb hp' ht =>
    cases hp'.symm.trans hp
    exact ⟨u, header, hr, ha, hx, hh⟩
  | complete u hr hc hx hp' ht =>
    cases hp'.symm.trans hp
    refine ⟨u, hr, hc, hx, ?_⟩
    simp [TcpConnection.Accepted, TcpConnection.responses, ht, responsesOf_complete,
      List.replicate_succ]
  | refused _ _ _ hp' _ | rejected _ _ _ _ _ _ hp' _ =>
    rcases hp' with hp' | hp'
    · cases hp'.symm.trans hp
      trivial
    · cases hp'.symm.trans hp
  | lost _ hp' _ | cut _ _ _ hp' _ _ | saved _ _ _ _ hp' _ => cases hp'.symm.trans hp

/-- The content handler finds its slot in range and empty. -/
theorem Situation.slot_empty (h : Situation mConfig stream s)
    (hp : s.conn.pending = some .readRequestContent) :
    s.conn.mCurrentRequestHorcruxes[s.conn.mRequestHeader.mIndex.toNat]? = some none := by
  obtain ⟨u, header, hr, ha, _, hh⟩ := h.pending hp
  rw [hr.slots, hh]
  exact (u.slots_empty_iff ha.2.1).mpr ha.2.2

/-- A connection that is about to save holds a complete upload. -/
theorem Situation.save_pending (h : Situation mConfig stream s)
    (hp : s.conn.pending = some (.sendResponse outcome .saveHorcruxes)) :
    ∃ u : Upload mConfig, s.conn.Receives u ∧ u.Complete ∧ stream = u.bytes ++ s.unread ∧
      s.conn.Accepted := by
  cases outcome with
  | true => exact h.pending hp
  | false => exact False.elim (h.pending hp)

/-- The connection that is about to save has every horcrux. -/
theorem Situation.all_filled (h : Situation mConfig stream s)
    (hp : s.conn.pending = some (.sendResponse outcome .saveHorcruxes)) :
    s.conn.mCurrentRequestHorcruxes.all Option.isSome = true := by
  obtain ⟨u, hr, hc, _, _⟩ := h.save_pending hp
  exact hr.all_filled hc

theorem fail_ne_undefined (s : Session) (k : Nat) (fs : FileSystem) :
    s.fail k fs ≠ .undefined := by
  unfold Session.fail
  split
  · split <;> simp
  · simp

/-- No handler runs into undefined behaviour, whatever asio reports. -/
theorem Situation.defined (h : Situation mConfig stream s) (io : Io) (fs : FileSystem) :
    s.complete io fs ≠ .undefined := by
  cases hp : s.conn.pending with
  | none => simp [Session.complete_none hp]
  | some op =>
    cases op with
    | readPreRequestHeader | readRequestHeader =>
      cases io with
      | error k => simpa [Session.complete, hp] using fail_ne_undefined s k fs
      | ok => simp only [Session.complete, hp]; split <;> simp
    | readRequestContent =>
      cases io with
      | error k => simpa [Session.complete, hp] using fail_ne_undefined s k fs
      | ok =>
        have hlt := (List.getElem?_eq_some_iff.mp (h.slot_empty hp)).1
        simp only [Session.complete, hp]
        split
        · simp
        · simp [TcpConnection.onRequestContent, hlt, Outcome.ofOption]
    | sendResponse outcome next =>
      rw [Session.complete_response hp]
      cases next with
      | readRequestHeader | nothing => simp [TcpConnection.onResponse, Outcome.ofOption]
      | saveHorcruxes =>
        obtain ⟨fs', hfs⟩ := exists_saveHorcruxes (h.all_filled hp) fs
        simp [TcpConnection.onResponse, hfs, Outcome.ofOption]

/-- The only slot that a handler writes is the one that the accepted header names. -/
theorem complete_slots (hp : s.conn.pending ≠ some .readPreRequestHeader)
    (h : s.complete io fs = .next (s', fs')) :
    s'.conn.mCurrentRequestHorcruxes = s.conn.mCurrentRequestHorcruxes ∨
      s.conn.pending = some .readRequestContent ∧ ∃ hcx, s'.conn.mCurrentRequestHorcruxes =
        s.conn.mCurrentRequestHorcruxes.set s.conn.mRequestHeader.mIndex.toNat (some hcx) := by
  cases hop : s.conn.pending with
  | none => rw [Session.complete_none hop] at h; cases h
  | some op =>
    cases op with
    | readPreRequestHeader => exact False.elim (hp hop)
    | readRequestHeader =>
      obtain ⟨_, ⟨k, _, rfl⟩ | ⟨buffer, rest, _, rfl⟩⟩ := Session.complete_requestHeader hop h
      · exact .inl rfl
      · left
        simp only [TcpConnection.onRequestHeader]
        split <;> rfl
    | readRequestContent =>
      obtain ⟨_, ⟨k, _, rfl⟩ | ⟨bytes, rest, c', _, hc, rfl⟩⟩ :=
        Session.complete_requestContent hop h
      · exact .inl rfl
      · right
        simp only [TcpConnection.onRequestContent] at hc
        split at hc
        · cases hc
          refine ⟨rfl, ⟨bytes.val ++ s.conn.mMessageBuffer.drop bytes.val.length, []⟩, ?_⟩
          dsimp only
          split <;> rfl
        · cases hc
    | sendResponse outcome next =>
      obtain ⟨c', hc, rfl⟩ := Session.complete_response_next hop h
      left
      cases next with
      | readRequestHeader | nothing => cases hc; rfl
      | saveHorcruxes =>
        obtain ⟨fs'', _, he⟩ := Option.bind_eq_some_iff.mp hc
        cases he
        rfl

theorem Situation.filled_slot_kept {i : Nat} (hs : Situation mConfig stream s)
    (h : s.complete io fs = .next (s', fs'))
    (hi : s.conn.mCurrentRequestHorcruxes[i]? = some (some hcx)) :
    s'.conn.mCurrentRequestHorcruxes[i]? = some (some hcx) := by
  by_cases hp : s.conn.pending = some .readPreRequestHeader
  · obtain rfl : s = .accepted mConfig stream := hs.pending hp
    simp at hi
  · rcases complete_slots hp h with he | ⟨hc, hcx', he⟩
    · rw [he, hi]
    · rw [he, List.getElem?_set_ne, hi]
      intro hidx
      have hempty := hs.slot_empty hc
      rw [hidx, hi] at hempty
      cases hempty

/-- What a handler can do: it ends the connection after an error or a FAILURE, it starts
the next operation, or it saves. -/
theorem complete_cases (h : s.complete io fs = .next (s', fs')) :
    (s'.conn.trace = s.conn.trace ∧ s'.conn.pending = none ∧ fs' = fs ∧
      (io = .ok → ∃ outcome, s.conn.pending = some (.sendResponse outcome .nothing))) ∨
    (∃ op, s'.conn.trace = s.conn.trace ++ [.started op] ∧ s'.conn.pending = some op ∧
      fs' = fs) ∨
    (s'.conn.trace = s.conn.trace ++ [.saved] ∧ s'.conn.pending = none ∧
      ∃ outcome, s.conn.pending = some (.sendResponse outcome .saveHorcruxes)) := by
  cases hop : s.conn.pending with
  | none => rw [Session.complete_none hop] at h; cases h
  | some op =>
    cases op with
    | readPreRequestHeader =>
      obtain ⟨rfl, ⟨k, hk, rfl⟩ | ⟨buffer, rest, _, rfl⟩⟩ := Session.complete_preRequestHeader hop h
      · exact .inl ⟨rfl, rfl, rfl, fun hok => nomatch hk.symm.trans hok⟩
      · simp only [TcpConnection.onPreRequestHeader]
        split <;> exact .inr (.inl ⟨_, rfl, rfl, trivial⟩)
    | readRequestHeader =>
      obtain ⟨rfl, ⟨k, hk, rfl⟩ | ⟨buffer, rest, _, rfl⟩⟩ := Session.complete_requestHeader hop h
      · exact .inl ⟨rfl, rfl, rfl, fun hok => nomatch hk.symm.trans hok⟩
      · simp only [TcpConnection.onRequestHeader]
        split <;> exact .inr (.inl ⟨_, rfl, rfl, trivial⟩)
    | readRequestContent =>
      obtain ⟨rfl, ⟨k, hk, rfl⟩ | ⟨bytes, rest, c', _, hc, rfl⟩⟩ :=
        Session.complete_requestContent hop h
      · exact .inl ⟨rfl, rfl, rfl, fun hok => nomatch hk.symm.trans hok⟩
      · simp only [TcpConnection.onRequestContent] at hc
        split at hc
        · cases hc
          dsimp only
          split <;> exact .inr (.inl ⟨_, rfl, rfl, rfl⟩)
        · cases hc
    | sendResponse outcome next =>
      obtain ⟨c', hc, rfl⟩ := Session.complete_response_next hop h
      cases next with
      | readRequestHeader => cases hc; exact .inr (.inl ⟨_, rfl, rfl, rfl⟩)
      | nothing => cases hc; exact .inl ⟨rfl, rfl, rfl, fun _ => ⟨outcome, rfl⟩⟩
      | saveHorcruxes =>
        obtain ⟨fs'', _, he⟩ := Option.bind_eq_some_iff.mp hc
        cases he
        exact .inr (.inr ⟨rfl, rfl, outcome, rfl⟩)

theorem trace_extends (h : s.complete io fs = .next (s', fs')) :
    s.conn.trace <+: s'.conn.trace := by
  rcases complete_cases h with ⟨he, _⟩ | ⟨op, he, _⟩ | ⟨he, _⟩
  · exact ⟨[], by rw [he, List.append_nil]⟩
  · exact ⟨_, he.symm⟩
  · exact ⟨_, he.symm⟩

theorem accepted_of_extends {c c' : TcpConnection} (h : c.trace <+: c'.trace) (ha : c.Accepted) :
    c'.Accepted := by
  obtain ⟨t, ht⟩ := h
  unfold TcpConnection.Accepted TcpConnection.responses at *
  rw [← ht, responsesOf_append, List.head?_append, ha]
  rfl

end

theorem accepted_kept {x y : Session × FileSystem} (hy : Agents.Schedule Session.Step ios x y)
    (ha : x.1.conn.Accepted) : y.1.conn.Accepted :=
  hy.keeps (P := fun y => y.1.conn.Accepted)
    (fun _ _ _ _ hs hstep => accepted_of_extends (trace_extends hstep) hs) ha

theorem Session.Reachable.trans {x y : Session × FileSystem}
    (h : Session.Reachable mConfig stream fs x) (hs : Agents.Schedule Session.Step ios x y) :
    Session.Reachable mConfig stream fs y := by
  obtain ⟨js, hj⟩ := h
  exact ⟨js ++ ios, hj.append hs⟩

/-- A connection on its own leaves the filesystem alone until it saves, and then has
saved what it holds. -/
theorem Session.Reachable.fs_eq {x : Session × FileSystem}
    (h : Session.Reachable mConfig stream fs x) :
    .saved ∉ x.1.conn.trace ∧ x.2 = fs ∨
      .saved ∈ x.1.conn.trace ∧ x.1.conn.pending = none ∧ x.1.conn.saveHorcruxes fs = some x.2 := by
  obtain ⟨ios, hr⟩ := h
  refine hr.keeps (P := fun x => .saved ∉ x.1.conn.trace ∧ x.2 = fs ∨
    .saved ∈ x.1.conn.trace ∧ x.1.conn.pending = none ∧ x.1.conn.saveHorcruxes fs = some x.2)
    ?_ (.inl ⟨by simp, rfl⟩)
  intro io _ x y hs hstep
  obtain ⟨s, f⟩ := x
  obtain ⟨s', f'⟩ := y
  rcases hs with ⟨hn, hf⟩ | ⟨_, hp, _⟩
  · dsimp only at hn hf
    subst hf
    rcases Session.complete_fs hstep with ⟨outcome, hp, hsave, rfl⟩ | ⟨rfl, hp⟩
    · exact .inr ⟨by simp, rfl, hsave⟩
    · refine .inl ⟨?_, rfl⟩
      rcases complete_cases hstep with ⟨he, _⟩ | ⟨op, he, _⟩ | ⟨_, _, outcome, hp'⟩
      · rwa [he]
      · simp [he, hn]
      · exact False.elim (hp outcome hp')
  · exact absurd hstep (by simp [Session.Step, Session.complete_none hp])

theorem Session.Reachable.saved_fs {x : Session × FileSystem}
    (h : Session.Reachable mConfig stream fs x) (ht : .saved ∈ x.1.conn.trace) :
    x.1.conn.saveHorcruxes fs = some x.2 := by
  rcases h.fs_eq with ⟨hn, _⟩ | ⟨_, _, hs⟩
  · exact False.elim (hn ht)
  · exact hs

/-- The server connection invariant: from an accepted pre-request on, the slot table has
the announced size; a content handler writes an empty slot in range; a filled slot never
changes; the filled slots are the requests answered with SUCCESS; a save finds every slot
filled; and no handler is undefined. -/
theorem connection_invariant {x : Session × FileSystem}
    (h : Session.Reachable mConfig stream fs x) :
    (x.1.conn.Accepted → ∀ ios y, Agents.Schedule Session.Step ios x y →
      y.1.conn.mCurrentRequestHorcruxes.length = y.1.conn.mPreRequestHeader.mNumHorcruxes.toNat ∧
      y.1.conn.mPreRequestHeader.mNumHorcruxes.toNat ≤ mConfig.mMaxNumHorcruxAccepted.toNat) ∧
    (x.1.conn.pending = some .readRequestContent →
      x.1.conn.mRequestHeader.mIndex.toNat < x.1.conn.mCurrentRequestHorcruxes.length ∧
      x.1.conn.mCurrentRequestHorcruxes[x.1.conn.mRequestHeader.mIndex.toNat]? = some none) ∧
    (∀ ios y, Agents.Schedule Session.Step ios x y → ∀ (i : Nat) hcx,
      x.1.conn.mCurrentRequestHorcruxes[i]? = some (some hcx) →
      y.1.conn.mCurrentRequestHorcruxes[i]? = some (some hcx)) ∧
    x.1.conn.filled = x.1.conn.responses.tail.count true ∧
    (∀ outcome, x.1.conn.pending = some (.sendResponse outcome .saveHorcruxes) →
      x.1.conn.mCurrentRequestHorcruxes.all Option.isSome = true) ∧
    (∀ io fs', x.1.complete io fs' ≠ .undefined) := by
  have hx := Situation.of_reachable h
  refine ⟨?_, ?_, ?_, hx.filled_eq, fun _ hp => hx.all_filled hp, hx.defined⟩
  · intro ha ios y hy
    obtain ⟨u, hr⟩ := (Situation.of_reachable (h.trans hy)).accepted_upload (accepted_kept hy ha)
    rw [hr.slots, hr.header, u.length_slots]
    exact ⟨rfl, u.number⟩
  · intro hp
    have he := hx.slot_empty hp
    exact ⟨(List.getElem?_eq_some_iff.mp he).1, he⟩
  · intro ios y hy i hcx hi
    have hkept := hy.keeps
      (P := fun y => Situation mConfig stream y.1 ∧
        y.1.conn.mCurrentRequestHorcruxes[i]? = some (some hcx)) ?_ ⟨hx, hi⟩
    · exact hkept.2
    · intro io _ x y hx hstep
      obtain ⟨s, fs⟩ := x
      obtain ⟨s', fs'⟩ := y
      obtain ⟨hs, hf⟩ := hx
      exact ⟨hs.step hstep, hs.filled_slot_kept hstep hf⟩

theorem connection_invariant_reading : ∃ x,
    Session.Reachable {} sampleStream (outDirectory []) x ∧ x.1.conn.Accepted ∧
      x.1.conn.mRequestHeader.mIndex.toNat < x.1.conn.mCurrentRequestHorcruxes.length := by
  have h : Session.Reachable {} sampleStream (outDirectory []) _ :=
    ⟨[.ok, .ok, .ok], .cons rfl (.cons rfl (.cons rfl .nil))⟩
  exact ⟨_, h, rfl, ((connection_invariant h).2.1 rfl).1⟩

end Horcrux
