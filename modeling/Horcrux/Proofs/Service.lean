import Horcrux.Proofs.Archive

namespace Horcrux
open Save Utils WriteOnce

section Session
variable {mConfig : Config} {stream : Bytes} {s : Session} {fs : FileSystem}
  {x y : Session × FileSystem}

theorem Session.advance_of_ok (h : Agents.Schedule Session.Step (List.replicate n .ok) x y) :
    Agents.Schedule Session.Advance (List.replicate n ()) x y := by
  induction n generalizing x with
  | zero =>
    cases h
    exact .nil
  | succ n ih =>
    cases h with
    | cons hs hrest =>
      have hok : x.1.EndOfStream .ok := fun _ _ _ he => nomatch he
      exact .cons ⟨.ok, hok, hs⟩ (ih hrest)

/-- A connection that has come to its end has saved what its stream carries. -/
theorem Session.saved_of_carries (hc : Carries mConfig stream p)
    (h : Agents.Schedule Session.Advance us (.accepted mConfig stream, fs) (s, g))
    (hp : s.conn.pending = none) : .saved ∈ s.conn.trace := by
  obtain ⟨pre, ms, rest, ha, hst, _⟩ := hc
  rw [ha.starts_iff.mp hst] at h
  obtain ⟨n, y, hy, ht⟩ := reach_saved ha.complete rest fs
  obtain ⟨_, _, _, _, hend⟩ := (Situation.of_reachable ⟨_, hy⟩).saved_upload ht
  have he := Session.advance_independent.unique trivial h (Session.advance_stuck hp)
    (Session.advance_of_ok hy) (Session.advance_stuck hend)
  rw [← he] at ht
  exact ht

/-- A connection that has saved has answered the announcement and each of its messages. -/
theorem Situation.saved_responses (h : Situation mConfig stream s) (ht : .saved ∈ s.conn.trace)
    (hc : Carries mConfig stream p) :
    s.conn.responses = List.replicate (p.pieces.length + 1) true := by
  obtain ⟨pre, ms, rest, ha, hst, _, hlen, _⟩ := hc
  rw [ha.starts_iff.mp hst] at h
  cases h with
  | saved u hr hu hx hp htr =>
    obtain ⟨rfl, _⟩ := upload_unique (fun he => ha.complete.1.trans (he.trans hu.1.symm)) hx
    obtain ⟨hl, hpos⟩ := ha.complete
    have he : ha.upload.count - 1 + 2 = ms.length + 1 := by
      rw [← hl] at hpos ⊢
      simp only [Accepts.upload] at hpos ⊢
      omega
    simp [TcpConnection.responses, htr, responsesOf_append, responsesOf_complete, he, responsesOf,
      hlen]
  | fresh => simp at ht
  | lost _ _ he | refused _ _ _ _ he => simp [he] at ht
  | answering _ _ _ _ _ he | listening _ _ _ _ _ he | reading _ _ _ _ _ _ _ _ he
  | rejected _ _ _ _ _ _ _ he => simp [he, saved_not_mem_received] at ht
  | cut _ _ _ _ _ he => rcases he with he | he <;> simp [he, saved_not_mem_received] at ht
  | complete _ _ _ _ _ he => simp [he, saved_not_mem_complete] at ht

end Session

namespace TcpServer
variable {ι : Type} [DecidableEq ι] {mConfig : Config} {incoming : ι → Bytes} {fs : FileSystem}
  {srv : TcpServer ι}

/-- Each connection has come where it is by moves of its own. -/
theorem advance_of_run
    (h : Agents.Schedule (Step mConfig incoming Session.EndOfStream) is (listening fs) srv)
    (hi : srv.connections i = some s) :
    ∃ us g, Agents.Schedule Session.Advance us (.accepted mConfig (incoming i), fs) (s, g) := by
  have hk := h.keeps (P := fun srv => ∀ i s, srv.connections i = some s → ∃ us g,
    Agents.Schedule Session.Advance us (.accepted mConfig (incoming i), fs) (s, g)) ?_ ?_
  · exact hk i s hi
  · intro j _ srv srv' hsrv hs i s hi
    by_cases hij : i = j
    · subst hij
      cases hs with
      | accept _ =>
        simp only [handleAccept, Function.update_self, Option.some.injEq] at hi
        subst hi
        exact ⟨[], fs, .nil⟩
      | handler hc hio hstep =>
        rename_i s₀ r s' _
        simp only [Function.update_self, Option.some.injEq] at hi
        subst hi
        obtain ⟨us, g, hrun⟩ := hsrv i s₀ hc
        have hone : Session.Advance () (s₀, g) (s', s₀.effect g) :=
          ⟨r, hio, Session.complete_any_fs hstep g⟩
        exact ⟨_, _, hrun.append (.single hone)⟩
    · rw [hs.frame hij] at hi
      exact hsrv i s hi
  · intro i s hi
    cases hi

end TcpServer

namespace AsioServer
variable {ι : Type} [DecidableEq ι] {mConfig : Config} {incoming : ι → Bytes} {fs : FileSystem}
  {srv : AsioServer ι} {acts : List (Act ι)}

/-- The refinement, where nothing is lost on the way. -/
theorem refines_orderly : Agents.Refines (Step mConfig incoming AsioSession.Orderly)
    (TcpServer.Step mConfig incoming Session.EndOfStream)
    (Matches fun p outcome => p = response outcome) := by
  apply refines
  · exact fun _ => rfl
  · intro x results hos hsend hnone
    obtain ⟨j, hj⟩ := hsend
    exact absurd hj (hos.2 hnone j)
  · exact fun _ _ _ _ hos hend => hend hos

/-- What the server does for clients whose bytes all arrive: when it is done with them, it
has filed the parcels of exactly those streams that carry one, each whole and one after the
other, and these clients were sent one SUCCESS for the announcement and one for each piece. -/
theorem complete_service
    (h : Agents.Schedule (Step mConfig incoming AsioSession.Orderly) acts (listening fs) srv)
    (hend : ∀ i, ∃ x, srv.connections i = some x ∧ x.conn.pending = none) :
    (∃ filed : List (ι × Parcel), (filed.map Prod.fst).Nodup ∧
      (∀ i p, (i, p) ∈ filed ↔ Carries mConfig (incoming i) p) ∧
      asStore srv.fs = (run Store.put (asStore fs) (filed.flatMap fun x => x.2.calls)).2) ∧
    ∀ i p x, Carries mConfig (incoming i) p → srv.connections i = some x →
      x.sent = (List.replicate (p.pieces.length + 1) (response true)).flatten := by
  obtain ⟨is, t, ht, hm⟩ := refines_orderly.run (listening_matches _ fs) h
  have hsaved : ∀ i p, Carries mConfig (incoming i) p → t.HasSaved i := by
    intro i p hp
    obtain ⟨x, hx, hnone⟩ := hend i
    obtain ⟨s, hs, hl⟩ := hm.exists_linked hx
    obtain ⟨us, g, hrun⟩ := TcpServer.advance_of_run ht hs
    exact ⟨s, hs, Session.saved_of_carries hp hrun (hl.matched.same.pending.symm.trans hnone)⟩
  refine ⟨?_, ?_⟩
  · obtain ⟨filed, hserial⟩ := exists_serial h
    refine ⟨filed, hserial.once, fun i p => ⟨fun hmem => hserial.carried _ hmem, ?_⟩, hserial.files⟩
    intro hp
    have hi := (hserial.saved i).mpr ((hm.hasSaved_iff i).mpr (hsaved i p hp))
    obtain ⟨y, hy, rfl⟩ := List.mem_map.mp hi
    rw [hp.unique (hserial.carried y hy)]
    exact hy
  · intro i p x hp hx
    obtain ⟨y, hy, hnone⟩ := hend i
    obtain rfl : x = y := Option.some.inj (hx.symm.trans hy)
    obtain ⟨s, hs, hl⟩ := hm.exists_linked hx
    obtain ⟨s', hs', htrace⟩ := hsaved i p hp
    obtain rfl : s = s' := Option.some.inj (hs.symm.trans hs')
    have hresponses := (TcpServer.Situated.of_run ht i s hs).saved_responses htrace hp
    rw [hl.sent_all hnone, TcpConnection.responses, hl.matched.same.trace,
      ← TcpConnection.responses, hresponses]
    simp [List.flatMap]

/-- The two sample uploads, when the server is done with them. -/
theorem complete_service_sample : ∃ (srv : AsioServer Bool) (x y : AsioSession),
    srv.connections false = some x ∧ x.sent = response true ++ response true ∧
    srv.connections true = some y ∧
      y.sent = response true ++ (response true ++ response true) := by
  obtain ⟨_, srv, _, x, y, h, h', _, _, hx, hpx, hy, _, hpy⟩ := two_run
  have hend : ∀ i, ∃ x, srv.connections i = some x ∧ x.conn.pending = none := fun i => by
    cases i with
    | false => exact ⟨x, hx, hpx⟩
    | true => exact ⟨y, hy, hpy⟩
  obtain ⟨_, hsent⟩ := complete_service (h.append h') hend
  exact ⟨srv, x, y, hx, (hsent _ _ _ (twoStreams_carries false) hx).trans (by decide), hy,
    (hsent _ _ _ (twoStreams_carries true) hy).trans (by decide)⟩

end AsioServer
end Horcrux
