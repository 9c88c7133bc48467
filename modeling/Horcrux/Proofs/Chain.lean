import Horcrux.Proofs.Connection

namespace Horcrux
open Save Utils

/-- What happens at a connection whose peer may go on sending for ever: a handler runs,
or more bytes arrive. -/
inductive Turn where
  | handler (io : Io)
  | arrival (bytes : Bytes)

inductive Session.Turns : Turn → Session × FileSystem → Session × FileSystem → Prop
  | handler : Session.Step io x y → Turns (.handler io) x y
  | arrival : Turns (.arrival bytes) (s, fs) (⟨s.conn, s.unread ++ bytes⟩, fs)

/-- The completions among the turns. -/
def handlers : List Turn → List Io
  | [] => []
  | .handler io :: turns => io :: handlers turns
  | .arrival _ :: turns => handlers turns

/-- All that has arrived in the turns. -/
def arrivals : List Turn → Bytes
  | [] => []
  | .handler _ :: turns => arrivals turns
  | .arrival bytes :: turns => bytes ++ arrivals turns

namespace TcpConnection

/-- How often the connection has started the operation. -/
def starts (c : TcpConnection) (op : AsyncOp) : Nat := c.trace.count (.started op)

/-- The messages that the connection has begun to read, the pre-request among them. -/
def messages (c : TcpConnection) : Nat :=
  c.starts .readPreRequestHeader + c.starts .readRequestHeader

/-- The last thing that the connection has done is to start a read, which goes on or has
failed. -/
def Unread (c : TcpConnection) : Prop := c.trace.getLast? ∈
  [some (.started .readPreRequestHeader), some (.started .readRequestHeader),
    some (.started .readRequestContent)]

/-- All that the connection does is bounded by the number `n` of announced horcruxes. No
message has more than one response, and one that is not read to its end has none. -/
structure Bounded (c : TcpConnection) (n : Nat) : Prop where
  headers : c.starts .readRequestHeader ≤ max 1 n
  contents : c.starts .readRequestContent ≤ n
  answered : c.responses.length ≤ c.messages
  unread : c.Unread → c.responses.length < c.messages
  events : c.trace.length ≤ 3 * n + 4

end TcpConnection

section
variable {mConfig : Config} {stream : Bytes} {s s' : Session} {fs fs' : FileSystem}
  {x y : Session × FileSystem} {turns : List Turn}

/-- Bytes may as well have been there from the start. -/
theorem schedule_of_turns (h : Agents.Schedule Session.Turns turns x y) :
    Agents.Schedule Session.Step (handlers turns)
      (⟨x.1.conn, x.1.unread ++ arrivals turns⟩, x.2) y := by
  induction h with
  | nil =>
    rw [arrivals, List.append_nil]
    exact .nil
  | cons ht _ ih =>
    cases ht with
    | handler hs => exact .cons (Session.complete_more hs _) ih
    | arrival =>
      rw [arrivals, ← List.append_assoc]
      exact ih

/-- Every handler but the last one leaves an event in the trace. -/
theorem step_trace_length (h : Session.Step io x y) :
    x.1.conn.trace.length + (if x.1.conn.pending = none then 1 else 0) + 1 ≤
      y.1.conn.trace.length + (if y.1.conn.pending = none then 1 else 0) := by
  have hp : x.1.conn.pending ≠ none := by
    intro hp
    cases (Session.complete_none hp io x.2).symm.trans h
  rw [if_neg hp]
  rcases complete_cases h with ⟨he, hn, _⟩ | ⟨op, he, hn, _⟩ | ⟨he, hn, _⟩
  · rw [he, if_pos hn]
  · simp [he, hn]
  · simp [he, hn]

theorem run_trace_length (h : Agents.Schedule Session.Step ios x y) :
    x.1.conn.trace.length + (if x.1.conn.pending = none then 1 else 0) + ios.length ≤
      y.1.conn.trace.length + (if y.1.conn.pending = none then 1 else 0) := by
  induction h with
  | nil => exact Nat.le_refl _
  | cons hs _ ih =>
    have hone := step_trace_length hs
    rw [List.length_cons]
    omega

/-- A connection without a pending operation stays as it is. -/
theorem turns_of_finished (h : Agents.Schedule Session.Turns turns x y)
    (hp : x.1.conn.pending = none) : handlers turns = [] ∧ y.1.conn = x.1.conn := by
  induction h with
  | nil => exact ⟨rfl, rfl⟩
  | cons ht _ ih =>
    cases ht with
    | handler hs => cases (Session.complete_none hp _ _).symm.trans hs
    | arrival => exact ih hp

/-- The events of a connection that has stored `k` horcruxes. -/
theorem count_received (k : Nat) :
    (receivedTrace k).count (.started .readPreRequestHeader) = 1 ∧
      (receivedTrace k).count (.started .readRequestHeader) = k ∧
      (receivedTrace k).count (.started .readRequestContent) = k ∧
      (receivedTrace k).length = 3 * k + 2 := by
  induction k with
  | zero => decide
  | succ k ih =>
    obtain ⟨hpre, hheader, hcontent, hlength⟩ := ih
    simp only [receivedTrace, List.count_append, List.length_append, hpre, hheader, hcontent,
      hlength]
    refine ⟨by decide, ?_, ?_, ?_⟩ <;> simp [Nat.mul_succ]

theorem getLast?_received (k : Nat) :
    (receivedTrace k).getLast? = some (.started (.sendResponse true .readRequestHeader)) := by
  cases k with
  | zero => rfl
  | succ k => simp [receivedTrace]

/-- The bounds are read off what a connection has done since its last SUCCESS. -/
theorem bounded_of_trace {c : TcpConnection} {u : Upload mConfig} {k : Nat} {tail : List Event}
    (hr : c.Receives u) (ht : c.trace = receivedTrace k ++ tail)
    (hheaders : k + tail.count (.started .readRequestHeader) ≤ max 1 u.count)
    (hcontents : k + tail.count (.started .readRequestContent) ≤ u.count)
    (hanswered : (responsesOf tail).length ≤ tail.count (.started .readRequestHeader))
    (hunread : c.Unread →
      (responsesOf tail).length < tail.count (.started .readRequestHeader))
    (hevents : 3 * k + 2 + tail.length ≤ 3 * u.count + 4) :
    c.Bounded c.mPreRequestHeader.mNumHorcruxes.toNat := by
  have hcount : c.mPreRequestHeader.mNumHorcruxes.toNat = u.count := by
    rw [hr.header]
    rfl
  obtain ⟨hpre, hheader, hcontent, hlength⟩ := count_received k
  have hresponses : c.responses.length = k + 1 + (responsesOf tail).length := by
    rw [TcpConnection.responses, ht, responsesOf_append, responsesOf_received, List.length_append,
      List.length_replicate]
  have hmessages : k + 1 + tail.count (.started .readRequestHeader) ≤ c.messages := by
    simp only [TcpConnection.messages, TcpConnection.starts, ht, List.count_append, hpre, hheader]
    omega
  rw [hcount]
  refine ⟨?_, ?_, ?_, ?_, ?_⟩
  · rwa [TcpConnection.starts, ht, List.count_append, hheader]
  · rwa [TcpConnection.starts, ht, List.count_append, hcontent]
  · omega
  · intro hq
    have := hunread hq
    omega
  · rwa [ht, List.length_append, hlength]

/-- A connection that has not got beyond its pre-request. -/
theorem bounded_of_refused {c : TcpConnection} {n : Nat}
    (h : c.trace = [.started .readPreRequestHeader] ∨
      c.trace = [.started .readPreRequestHeader, .started (.sendResponse false .nothing)]) :
    c.Bounded n := by
  rcases h with ht | ht <;> constructor <;> simp [TcpConnection.starts, TcpConnection.messages,
    TcpConnection.responses, TcpConnection.Unread, ht, responsesOf]

theorem length_lt_of_not_complete {u : Upload mConfig} (hn : ¬ u.Complete) :
    u.messages.length < max 1 u.count := by
  have hle := u.length_le
  by_contra hge
  exact hn ⟨by omega, by omega⟩

theorem Upload.Admits.length_lt {u : Upload mConfig} (ha : u.Admits header) :
    u.messages.length < u.count := by
  have hlt := length_lt_of_not_complete ha.not_complete
  have hpos : 0 < u.count := Nat.zero_lt_of_lt ha.2.1
  omega

/-- Only a connection that has slots comes to read a content. -/
theorem content_started (h : Session.Reachable mConfig stream fs x)
    (hm : .started .readRequestContent ∈ x.1.conn.trace) :
    0 < x.1.conn.mCurrentRequestHorcruxes.length := by
  obtain ⟨ios, hr⟩ := h
  have hk := hr.keeps (P := fun x => Situation mConfig stream x.1 ∧
    (.started .readRequestContent ∈ x.1.conn.trace →
      0 < x.1.conn.mCurrentRequestHorcruxes.length)) ?_ ⟨.fresh, ?_⟩
  · exact hk.2 hm
  · intro io _ x y hx hstep
    obtain ⟨s, f⟩ := x
    obtain ⟨s', f'⟩ := y
    obtain ⟨hs, hpos⟩ := hx
    have hs' := hs.step hstep
    refine ⟨hs', ?_⟩
    intro hm
    have hkept : .started .readRequestContent ∈ s.conn.trace →
        0 < s'.conn.mCurrentRequestHorcruxes.length := by
      intro hm
      have hp : s.conn.pending ≠ some .readPreRequestHeader := by
        intro hp
        obtain rfl : s = .accepted mConfig stream := hs.pending hp
        simp at hm
      rcases complete_slots hp hstep with he | ⟨_, hcx, he⟩
      · rw [he]
        exact hpos hm
      · rw [he, List.length_set]
        exact hpos hm
    rcases complete_cases hstep with ⟨he, _⟩ | ⟨op, he, hp, _⟩ | ⟨he, _⟩
    · exact hkept (he ▸ hm)
    · rw [he, List.mem_append, List.mem_singleton, Event.started.injEq] at hm
      rcases hm with hm | rfl
      · exact hkept hm
      · have hempty := hs'.slot_empty hp
        exact Nat.zero_lt_of_lt (List.getElem?_eq_some_iff.mp hempty).1
    · rw [he, List.mem_append] at hm
      rcases hm with hm | hm
      · exact hkept hm
      · simp at hm
  · intro hm
    simp at hm

theorem Situation.bounded (h : Situation mConfig stream s)
    (hcontent : .started .readRequestContent ∈ s.conn.trace →
      0 < s.conn.mCurrentRequestHorcruxes.length) :
    s.conn.Bounded s.conn.mPreRequestHeader.mNumHorcruxes.toNat := by
  cases h with
  | fresh => exact bounded_of_refused (.inl rfl)
  | lost hs hp ht => exact bounded_of_refused (.inl ht)
  | refused pre hx hs hp ht =>
    exact bounded_of_refused (.inr ht)
  | answering u hr hn hx hp ht =>
    have hle := u.length_le
    rw [← List.append_nil (receivedTrace _)] at ht
    refine bounded_of_trace hr ht ?_ hle (by decide) ?_ ?_
    · exact hle.trans (Nat.le_max_right _ _)
    · simp [TcpConnection.Unread, ht, getLast?_received]
    · simp only [List.length_nil]
      omega
  | listening u hr hn hx hp ht =>
    have hlt := length_lt_of_not_complete hn
    have hle := u.length_le
    refine bounded_of_trace hr ht hlt hle (by decide) (fun _ => by decide) ?_
    simp only [List.length_singleton]
    omega
  | reading u header hr ha hx hh hb hp ht =>
    have hlt := ha.length_lt
    refine bounded_of_trace hr ht (hlt.trans_le (Nat.le_max_right _ _)) hlt (by decide)
      (fun _ => by decide) ?_
    simp only [List.length_cons, List.length_nil]
    omega
  | cut u hr hn hp hx ht =>
    have hlt := length_lt_of_not_complete hn
    have hle := u.length_le
    rcases ht with ht | ht
    · refine bounded_of_trace hr ht hlt hle (by decide) (fun _ => by decide) ?_
      simp only [List.length_singleton]
      omega
    · have hpos := hcontent (by simp [ht])
      dsimp only at hpos
      rw [hr.slots, u.length_slots] at hpos
      have hlt' : u.messages.length < u.count := by omega
      refine bounded_of_trace hr ht hlt hlt' (by decide) (fun _ => by decide) ?_
      simp only [List.length_cons, List.length_nil]
      omega
  | rejected u header hr hn ha hx hp ht =>
    have hlt := length_lt_of_not_complete hn
    have hle := u.length_le
    refine bounded_of_trace hr ht hlt hle (by decide) ?_ ?_
    · simp [TcpConnection.Unread, ht]
    · simp only [List.length_cons, List.length_nil]
      omega
  | complete u hr hc hx hp ht =>
    have hlt : u.count - 1 < u.count := Nat.sub_lt hc.2 Nat.one_pos
    rw [completeTrace] at ht
    refine bounded_of_trace hr ht (hlt.trans_le (Nat.le_max_right _ _)) hlt (by decide) ?_ ?_
    · simp [TcpConnection.Unread, ht]
    · simp only [List.length_cons, List.length_nil]
      omega
  | saved u hr hc hx hp ht =>
    have hlt : u.count - 1 < u.count := Nat.sub_lt hc.2 Nat.one_pos
    rw [completeTrace, List.append_assoc] at ht
    refine bounded_of_trace hr ht (hlt.trans_le (Nat.le_max_right _ _)) hlt (by decide) ?_ ?_
    · simp [TcpConnection.Unread, ht]
    · simp only [List.length_append, List.length_cons, List.length_nil]
      omega

/-- Every connection's handler chain ends, whatever arrives and for however long: a
connection that has been told of `n` horcruxes reads no more than max(1, n) request
headers and `n` contents, answers each message it has read at most once, and runs no more
than 3n + 4 handlers; after the last one it starts nothing any more. -/
theorem chain_ends (h : Agents.Schedule Session.Turns turns (.accepted mConfig [], fs) x) :
    x.1.conn.Bounded x.1.conn.mPreRequestHeader.mNumHorcruxes.toNat ∧
    (handlers turns).length ≤ 3 * x.1.conn.mPreRequestHeader.mNumHorcruxes.toNat + 4 ∧
    (x.1.conn.pending = none → ∀ more y, Agents.Schedule Session.Turns more x y →
      handlers more = [] ∧ y.1.conn = x.1.conn) := by
  have hrun : Agents.Schedule Session.Step (handlers turns)
      (.accepted mConfig (arrivals turns), fs) x := schedule_of_turns h
  have hreach : Session.Reachable mConfig (arrivals turns) fs x := ⟨_, hrun⟩
  have hb := (Situation.of_reachable hreach).bounded (content_started hreach)
  refine ⟨hb, ?_, ?_⟩
  · have hlen := run_trace_length hrun
    have hfirst : (Session.accepted mConfig (arrivals turns)).conn.trace.length = 1 := rfl
    have hevents := hb.events
    rw [hfirst] at hlen
    split at hlen <;> split at hlen <;> omega
  · intro hp more y hy
    exact turns_of_finished hy hp

/-- The sample upload as it arrives, up to its end. -/
def sampleTurns : List Turn :=
  [.arrival (preRequest 7 2 1).val, .handler .ok, .handler .ok,
    .arrival (request 7 0 [104, 105]).bytes, .handler .ok, .handler .ok, .handler .ok]

theorem chain_ends_sample : ∃ x, Agents.Schedule Session.Turns sampleTurns
    (.accepted {} [], outDirectory []) x ∧ x.1.conn.trace.getLast? = some .saved ∧
    x.1.conn.starts .readRequestHeader ≤ 1 ∧ ∀ more y, Agents.Schedule Session.Turns more x y →
      handlers more = [] ∧ y.1.conn = x.1.conn := by
  have h : Agents.Schedule Session.Turns sampleTurns (.accepted {} [], outDirectory []) _ :=
    .cons .arrival (.cons (.handler rfl) (.cons (.handler rfl) (.cons .arrival
      (.cons (.handler rfl) (.cons (.handler rfl) (.cons (.handler rfl) .nil))))))
  exact ⟨_, h, rfl, (chain_ends h).1.headers, (chain_ends h).2.2 rfl⟩

end
end Horcrux
