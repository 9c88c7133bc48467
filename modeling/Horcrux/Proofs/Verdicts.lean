import Horcrux.Conversation
import Horcrux.Lib.Segments
import Horcrux.Proofs.Shipping
import Mathlib.Tactic.IntervalCases

namespace Horcrux
open Save Utils

/-- All that the server has to say. -/
def wording (responses : List Bool) : Bytes := responses.flatMap response

/-- A response of SUCCESS is read in one piece: what came before it has been read, and
the call returns its seven bytes. -/
def Aligned (responses : List Bool) (lengths : List Nat) (k : Nat) : Prop :=
  ∀ l, lengths[k]? = some l → responses[k]? = some true → (lengths.take k).sum = k * 7 ∧ l = 7

section Wording
variable {responses : List Bool} {lengths : List Nat}

theorem length_wording (responses : List Bool) :
    (wording responses).length = responses.length * 7 :=
  Segments.length_flatMap length_response responses

/-- A chunk that reads SUCCESS starts in a response that is one: no letter of FAILURE is
an S. -/
theorem success_of_chunk {j : Nat} (hj : responses[j]? = some b) (hlow : j * 7 ≤ o)
    (hhigh : o < (j + 1) * 7) (hc : ((wording responses).drop o).take l = response true) :
    b = true := by
  have hfirst : (wording responses)[o]? = some 83 := by
    have h0 := congrArg (fun bs : Bytes => bs[0]?) hc
    have hl : l ≠ 0 := by
      intro hl
      rw [hl, List.take_zero] at hc
      cases hc
    simp only [List.getElem?_take_of_lt (Nat.pos_of_ne_zero hl), List.getElem?_drop,
      Nat.add_zero] at h0
    exact h0
  obtain ⟨r, rfl⟩ : ∃ r, o = j * 7 + r := ⟨o - j * 7, by omega⟩
  have hr : r < 7 := by omega
  rw [wording, Segments.getElem?_flatMap length_response hj hr] at hfirst
  cases b with
  | true => rfl
  | false => interval_cases r <;> cases hfirst

/-- While every SUCCESS before has been read in one piece, a chunk that reads SUCCESS is
the response that its call waits for. -/
theorem aligned_of_success (hk : lengths[k]? = some l) (hlt : k < responses.length)
    (hahead : (lengths.take k).sum ≤ k * 7)
    (hbefore : ∀ j < k, Aligned responses lengths j)
    (hc : ((wording responses).drop (lengths.take k).sum).take l = response true) :
    responses[k]? = some true ∧ (lengths.take k).sum = k * 7 := by
  have hklt := (List.getElem?_eq_some_iff.mp hk).1
  have hj : (lengths.take k).sum / 7 ≤ k := by omega
  have hjlt : (lengths.take k).sum / 7 < responses.length := by omega
  have hb := success_of_chunk (List.getElem?_eq_getElem hjlt) (by omega) (by omega) hc
  have hsome := List.getElem?_eq_getElem hjlt
  rw [hb] at hsome
  rcases Nat.eq_or_lt_of_le hj with he | hjk
  · rw [he] at hsome
    exact ⟨hsome, by omega⟩
  · -- that response has been read to its end before
    have hjlen : (lengths.take k).sum / 7 < lengths.length := by omega
    obtain ⟨hoff, hseven⟩ := hbefore _ hjk _ (List.getElem?_eq_getElem hjlen) hsome
    have hnext : (lengths.take ((lengths.take k).sum / 7 + 1)).sum =
        ((lengths.take k).sum / 7 + 1) * 7 := by
      rw [List.take_succ_eq_append_getElem hjlen, List.sum_append, hoff, hseven]
      simp
      omega
    have hmono := Segments.sum_take_le lengths (Nat.succ_le_of_lt hjk)
    rw [Nat.succ_eq_add_one, hnext] at hmono
    omega

/-- What a call returns has been sent, so that it is as long as the call says. -/
theorem length_of_success (hsent : lengths.sum ≤ (wording responses).length)
    (hk : lengths[k]? = some l)
    (hc : ((wording responses).drop (lengths.take k).sum).take l = response true) : l = 7 := by
  have hnext : (lengths.take k).sum + l ≤ lengths.sum := by
    have hle := Segments.sum_take_le lengths (List.getElem?_eq_some_iff.mp hk).1
    rw [List.take_length, Nat.succ_eq_add_one, List.take_add_one, hk, List.sum_append] at hle
    simpa using hle
  have hlen := congrArg List.length hc
  rw [List.length_take, List.length_drop, length_response] at hlen
  omega

/-- What the call number `k` gets. -/
theorem getElem?_verdicts (responses : List Bool) (lengths : List Nat) (k : Nat) :
    ((lengths.splitLengths (wording responses)).map readResponse)[k]? = lengths[k]?.map
      fun l => readResponse (((wording responses).drop (lengths.take k).sum).take l) := by
  rw [List.getElem?_map, Segments.getElem?_splitLengths, Option.map_map]
  rfl

/-- An aligned call gets the response it waits for. -/
theorem chunk_of_aligned (hb : responses[k]? = some b) :
    ((wording responses).drop (k * 7)).take 7 = response b := by
  obtain ⟨hlt, rfl⟩ := List.getElem?_eq_some_iff.mp hb
  rw [wording, Segments.drop_flatMap length_response, List.drop_eq_getElem_cons hlt,
    List.flatMap_cons, List.take_append_of_le_length (length_response _).ge,
    List.take_of_length_le (length_response _).le]

/-- The verdicts are right exactly when every SUCCESS is read in one piece. -/
theorem chunks_follow_iff (hahead : ∀ k ≤ lengths.length, (lengths.take k).sum ≤ k * 7)
    (hsent : lengths.sum ≤ (wording responses).length) :
    (∀ (k : Nat) (v b : Bool),
      ((lengths.splitLengths (wording responses)).map readResponse)[k]? = some v →
      responses[k]? = some b → (v = true ↔ b = true)) ↔ ∀ k, Aligned responses lengths k := by
  constructor
  · intro hright k
    induction k using Nat.strong_induction_on with
    | h k ih =>
      intro l hl hb
      have hv := getElem?_verdicts responses lengths k
      rw [hl, Option.map_some] at hv
      have hc := readResponse_iff.mp ((hright k _ true hv hb).mpr rfl)
      have hklt := (List.getElem?_eq_some_iff.mp hl).1
      have hrlt := (List.getElem?_eq_some_iff.mp hb).1
      have hoff := (aligned_of_success hl hrlt (hahead k hklt.le) ih hc).2
      exact ⟨hoff, length_of_success hsent hl hc⟩
  · intro haligned k v b hv hb
    rw [getElem?_verdicts, Option.map_eq_some_iff] at hv
    obtain ⟨l, hl, rfl⟩ := hv
    rw [readResponse_iff]
    constructor
    · intro hc
      have hklt := (List.getElem?_eq_some_iff.mp hl).1
      have hrlt := (List.getElem?_eq_some_iff.mp hb).1
      have htrue := (aligned_of_success hl hrlt (hahead k hklt.le) (fun j _ => haligned j) hc).1
      rw [hb] at htrue
      exact Option.some.inj htrue
    · intro hbt
      subst hbt
      obtain ⟨hoff, hseven⟩ := haligned k l hl hb
      rw [hoff, hseven]
      exact chunk_of_aligned hb

end Wording

namespace ClientMain

/-- Only `read_some` adds a verdict. -/
theorem verdicts_resume (c : ClientMain) (h : ∀ bytes, result ≠ .read bytes) :
    (c.resume result).verdicts = c.verdicts := by
  unfold resume
  split
  all_goals first | rfl | exact absurd rfl (h _)

theorem verdicts_read {c : ClientMain} (h : c.reading = true) (bytes : Bytes) :
    (c.resume (.read bytes)).verdicts = c.verdicts ++ [Horcrux.readResponse bytes] := by
  unfold reading at h
  unfold resume
  split at h
  · rename_i hp
    simp only [hp]
  · rename_i hp
    simp only [hp]
  · cases h

end ClientMain

namespace Conversation
variable {responses : List Bool}

/-- After the calls of `read_some` in `past`, the client has cut what the server says at
their lengths, and no call has got ahead of the responses. -/
structure Follows (responses : List Bool) (past : List Nat) (n : Conversation) : Prop where
  issued_le : n.issued ≤ responses.length
  asked : n.issued ≤ n.client.verdicts.length + 1
  sum_le : past.sum ≤ n.issued * 7
  unread : n.unread = ((wording responses).take (n.issued * 7)).drop past.sum
  verdicts : n.client.verdicts = (past.splitLengths (wording responses)).map readResponse
  ahead : ∀ k ≤ past.length, (past.take k).sum ≤ k * 7

/-- What neither issues nor reads a byte keeps it. -/
theorem Follows.silent (h : Follows responses past n)
    (hc : c.verdicts = n.client.verdicts) : Follows responses past { n with client := c } where
  issued_le := h.issued_le
  asked := by
    rw [hc]
    exact h.asked
  sum_le := h.sum_le
  unread := h.unread
  verdicts := hc.trans h.verdicts
  ahead := h.ahead

theorem sent_le (c : ClientMain) : c.sent ≤ c.verdicts.length + 1 := by
  unfold ClientMain.sent
  split <;> omega

theorem Follows.respond (h : Follows responses past n) (hlt : n.issued < n.client.sent)
    (ho : responses[n.issued]? = some outcome) :
    Follows responses past
      { n with issued := n.issued + 1, unread := n.unread ++ response outcome } := by
  obtain ⟨hr, he⟩ := List.getElem?_eq_some_iff.mp ho
  refine ⟨hr, Nat.le_trans hlt (sent_le n.client), ?_, ?_, h.verdicts, h.ahead⟩
  · have := h.sum_le
    change past.sum ≤ (n.issued + 1) * 7
    omega
  · have hlen : past.sum ≤ ((wording responses).take (n.issued * 7)).length := by
      have := h.issued_le
      have := h.sum_le
      rw [List.length_take, length_wording]
      omega
    change n.unread ++ response outcome = ((wording responses).take ((n.issued + 1) * 7)).drop _
    rw [h.unread, ← List.drop_append_of_le_length hlen]
    simp only [wording, Segments.take_flatMap length_response]
    rw [List.take_succ_eq_append_getElem hr, List.flatMap_append, he]
    simp

theorem Follows.read (h : Follows responses past n) (hread : n.client.reading = true)
    (hk : k ≤ n.unread.length) :
    Follows responses (past ++ [k]) { n with
      client := n.client.resume (.read (n.unread.take k)), unread := n.unread.drop k } := by
  have hv := ClientMain.verdicts_read hread (n.unread.take k)
  have hcount : n.client.verdicts.length = past.length := by
    rw [h.verdicts, List.length_map, List.length_splitLengths]
  have hsum : (past ++ [k]).sum = past.sum + k := by simp
  have hle : past.sum + k ≤ n.issued * 7 := by
    have hlen := hk
    rw [h.unread, List.length_drop, List.length_take] at hlen
    have := h.sum_le
    omega
  have hasked := h.asked
  refine ⟨h.issued_le, ?_, ?_, ?_, ?_, ?_⟩
  · change n.issued ≤ (n.client.resume _).verdicts.length + 1
    rw [hv, List.length_append]
    omega
  · rw [hsum]
    exact hle
  · change n.unread.drop k = _
    rw [h.unread, List.drop_drop, hsum]
  · change (n.client.resume _).verdicts = _
    rw [hv, Segments.splitLengths_concat, List.map_append, h.verdicts, h.unread, List.drop_take,
      List.take_take, Nat.min_eq_left (by omega)]
    rfl
  · intro j hj
    rw [List.length_append, List.length_singleton] at hj
    rcases Nat.eq_or_lt_of_le hj with he | hlt
    · rw [List.take_of_length_le (by simp [he]), hsum]
      omega
    · rw [List.take_append_of_le_length (by omega)]
      exact h.ahead j (by omega)

/-- An act that reads nothing. -/
theorem Follows.aside (h : Follows responses past n) (ha : reads [act] = []) :
    Follows responses (past ++ reads [act]) n := by
  rw [ha, List.append_nil]
  exact h

/-- One act. -/
theorem Follows.step (h : Follows responses past n) (hs : Step responses act n m) :
    Follows responses (past ++ reads [act]) m := by
  cases hs with
  | write _ _ => exact (h.silent (ClientMain.verdicts_resume _ (by nofun))).aside rfl
  | writeError _ => exact (h.silent (ClientMain.verdicts_resume _ (by nofun))).aside rfl
  | respond hlt ho => exact (h.respond hlt ho).aside rfl
  | read hread _ _ hk => exact h.read hread hk
  | readError _ => exact (h.silent (ClientMain.verdicts_resume _ (by nofun))).aside rfl

theorem reads_cons (act : Act) (acts : List Act) :
    reads (act :: acts) = reads [act] ++ reads acts := by
  cases act <;> rfl

/-- A whole conversation, by induction on its acts. -/
theorem Follows.run (h : Follows responses past n)
    (hr : Agents.Schedule (Step responses) acts n m) :
    Follows responses (past ++ reads acts) m := by
  induction hr generalizing past with
  | nil =>
    rw [reads, List.append_nil]
    exact h
  | cons hs _ ih =>
    rw [reads_cons, ← List.append_assoc]
    exact ih (h.step hs)

theorem Follows.start (responses : List Bool) (hv : c.verdicts = []) :
    Follows responses [] { client := c } where
  issued_le := Nat.zero_le _
  asked := Nat.zero_le _
  sum_le := Nat.zero_le _
  unread := by simp
  verdicts := hv
  ahead := by simp

end Conversation

/-- The verdicts follow the server's responses exactly when each SUCCESS is read in one
piece: a response that `read_some` cuts is never put together again. -/
theorem verdicts_follow_iff (responses : List Bool) (uuid : UInt64)
    (padding : UInt32 → CharArray 4) (horcruxes : List HorcruxData)
    (hr : Agents.Schedule (Conversation.Step responses) acts
      { client := .withHorcruxes uuid padding horcruxes } n) :
    (∀ (k : Nat) (v b : Bool), n.client.verdicts[k]? = some v → responses[k]? = some b →
      (v = true ↔ b = true)) ↔
    ∀ k, Aligned responses (Conversation.reads acts) k := by
  have hstart : (ClientMain.withHorcruxes uuid padding horcruxes).verdicts = [] := by
    unfold ClientMain.withHorcruxes
    split <;> rfl
  have h := (Conversation.Follows.start responses hstart).run hr
  rw [List.nil_append] at h
  rw [h.verdicts]
  apply chunks_follow_iff h.ahead
  have := h.sum_le
  have := h.issued_le
  rw [length_wording]
  omega

/-- The pre-request is answered with SUCCESS, of which the client reads `k` bytes. -/
theorem sample_conversation (hk : 1 ≤ k ∧ k ≤ 7) :
    ∃ n, Agents.Schedule (Conversation.Step [true]) [.write 16, .respond, .read k]
        { client := .withHorcruxes 7 (fun _ => zeroPadding) [⟨[104, 105], []⟩] } n ∧
      n.client.verdicts = [readResponse ((response true).take k)] :=
  ⟨_, .cons (.write rfl ⟨by decide, by decide⟩) (.cons (.respond (by decide) rfl)
    (.cons (.read rfl hk.1 (Nat.le_trans hk.2 (by decide)) hk.2) .nil)), rfl⟩

theorem verdicts_follow_sample :
    ∃ n, Agents.Schedule (Conversation.Step [true]) [.write 16, .respond, .read 7]
        { client := .withHorcruxes 7 (fun _ => zeroPadding) [⟨[104, 105], []⟩] } n ∧
      ∀ (k : Nat) (v b : Bool), n.client.verdicts[k]? = some v → [true][k]? = some b →
        (v = true ↔ b = true) := by
  obtain ⟨n, hrun, _⟩ := sample_conversation (k := 7) (by decide)
  refine ⟨n, hrun, (verdicts_follow_iff [true] 7 _ _ hrun).mpr ?_⟩
  intro k l hl hb
  cases k with
  | zero => exact ⟨rfl, (Option.some.inj hl).symm⟩
  | succ k => cases hb

/-- SUCCESS that arrives as SUC is taken for a failure. -/
theorem verdict_lost : ¬ ∀ (responses : List Bool) (uuid : UInt64)
    (padding : UInt32 → CharArray 4) (horcruxes : List HorcruxData) (acts : List Act)
    (n : Conversation),
    Agents.Schedule (Conversation.Step responses) acts
      { client := .withHorcruxes uuid padding horcruxes } n →
    ∀ (k : Nat) (v b : Bool), n.client.verdicts[k]? = some v → responses[k]? = some b →
      (v = true ↔ b = true) := by
  intro h
  obtain ⟨n, hrun, hv⟩ := sample_conversation (k := 3) (by decide)
  have hfalse : n.client.verdicts[0]? = some false := by
    rw [hv]
    decide
  exact absurd ((h _ _ _ _ _ n hrun 0 false true hfalse rfl).mpr rfl) (by decide)

end Horcrux
