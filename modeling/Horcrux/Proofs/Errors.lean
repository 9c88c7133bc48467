import Horcrux.Proofs.Storing

namespace Horcrux
open Save Utils

/-- The operations that the connection has started, oldest first. -/
def TcpConnection.started (c : TcpConnection) : List AsyncOp :=
  c.trace.filterMap fun e => match e with
    | .started op => some op
    | .saved => none

/-- Between the two states no operation was started and no file written. -/
def Quiet (x y : Session × FileSystem) : Prop :=
  y.1.conn.started = x.1.conn.started ∧ y.2 = x.2

/-- The state before an operation that may fail without consequences: no SUCCESS is being
written that leads to another read, nor one after which files are still to be created. -/
structure Harmless (x : Session × FileSystem) : Prop where
  reading : x.1.conn.pending ≠ some (.sendResponse true .readRequestHeader)
  saving : x.1.conn.pending = some (.sendResponse true .saveHorcruxes) →
    x.2 kOutPath ≠ some .directory ∨ ∀ i < x.1.conn.mPreRequestHeader.mNumHorcruxes.toNat,
      x.2 (horcruxPath x.1.conn.mPreRequestHeader.mUuid (.ofNat i)) ≠ none

section
variable {mConfig : Config} {stream : Bytes} {s s' : Session} {fs fs' : FileSystem}
  {x y : Session × FileSystem}

/-- A read that fails ends the connection. -/
theorem complete_read_error (hn : s.conn.requested ≠ none)
    (h : s.complete (.error k) fs = .next (s', fs')) :
    s'.conn.pending = none ∧ s'.conn.trace = s.conn.trace ∧ fs' = fs := by
  rw [Session.complete_error hn] at h
  obtain ⟨rfl, rfl⟩ := Session.fail_next h
  exact ⟨rfl, rfl, rfl⟩

theorem run_of_finished (h : Agents.Schedule Session.Step ios x y)
    (hp : x.1.conn.pending = none) : y = x := by
  cases h with
  | nil => rfl
  | cons hs _ => cases (Session.complete_none hp _ _).symm.trans hs

/-- A save writes nothing exactly when the directory is missing or all its paths are
taken. -/
theorem Saves.eq_iff (h : Saves fs fs' uuid cs) : fs' = fs ↔
    fs kOutPath ≠ some .directory ∨ ∀ k < cs.length, fs (horcruxPath uuid (.ofNat k)) ≠ none := by
  constructor
  · intro he
    by_contra hn
    simp only [not_or, not_not, not_forall] at hn
    obtain ⟨hout, k, hk, hfree⟩ := hn
    have hfile := h.free hout (List.getElem?_eq_getElem hk) hfree
    rw [he, hfree] at hfile
    cases hfile
  · intro hn
    funext p
    by_cases hk : ∃ k < cs.length, p = horcruxPath uuid (.ofNat k)
    · obtain ⟨k, hlt, rfl⟩ := hk
      rw [h.own k _ (List.getElem?_eq_getElem hlt), if_neg]
      intro hfree
      rcases hn with hout | htaken
      · exact hout hfree.2
      · exact htaken k hlt hfree.1
    · exact h.other p fun k hlt he => hk ⟨k, hlt, he⟩

theorem quiet_of_finished (h : Agents.Schedule Session.Step ios y z)
    (hp : y.1.conn.pending = none) (hq : Quiet x y) : Quiet x z := by
  rwa [run_of_finished h hp]

/-- A connection does nothing more after an I/O error exactly when the error is harmless:
a read that fails ends the connection, but the handler of a write calls its continuation
whatever the error code says. -/
theorem quiet_after_error_iff (hx : Session.Reachable mConfig stream fs x)
    (hy : Session.Step (.error k) x y) :
    (∀ ios z, Agents.Schedule Session.Step ios y z → Quiet x z) ↔ Harmless x := by
  have hs : Situation mConfig stream x.1 := Situation.of_reachable hx
  obtain ⟨s, f⟩ := x
  obtain ⟨s', f'⟩ := y
  dsimp only at hs
  cases hp : s.conn.pending with
  | none => cases (Session.complete_none hp _ _).symm.trans hy
  | some op =>
    cases op with
    | readPreRequestHeader | readRequestHeader | readRequestContent =>
      obtain ⟨hn, ht, rfl⟩ := complete_read_error (by simp [TcpConnection.requested, hp]) hy
      refine iff_of_true ?_ ⟨by simp [hp], by simp [hp]⟩
      intro ios z hz
      refine quiet_of_finished hz hn ⟨?_, rfl⟩
      rw [TcpConnection.started, ht]
      rfl
    | sendResponse outcome next =>
      obtain ⟨c', hc, rfl⟩ := Session.complete_response_next hp hy
      cases next with
      | readRequestHeader =>
        cases hc
        cases outcome with
        | false => exact False.elim (hs.pending hp)
        | true =>
          refine iff_of_false ?_ fun h => h.reading hp
          intro h
          have hq := (h [] _ .nil).1
          simp [TcpConnection.started, TcpConnection.readRequestHeader, TcpConnection.start] at hq
      | nothing =>
        cases hc
        refine iff_of_true ?_ ⟨by simp [hp], by simp [hp]⟩
        intro ios z hz
        exact quiet_of_finished hz rfl ⟨rfl, rfl⟩
      | saveHorcruxes =>
        obtain ⟨fs'', hsave, he⟩ := Option.bind_eq_some_iff.mp hc
        cases he
        obtain ⟨u, hr, hcomplete, _, _⟩ := hs.save_pending hp
        obtain ⟨cs, hcs⟩ := Lists.eq_map_some (hs.all_filled hp)
        have hlen : cs.length = s.conn.mPreRequestHeader.mNumHorcruxes.toNat := by
          rw [hr.length_holds ⟨rfl, hcs⟩, hr.header]
          rfl
        have hsaves := (hr.saves ⟨rfl, hcs⟩ hsave).eq_iff
        rw [hlen] at hsaves
        constructor
        · intro h
          exact ⟨by simp [hp], fun _ => hsaves.mp (h [] _ .nil).2⟩
        · intro h ios z hz
          have hout : outcome = true := by
            cases outcome with
            | true => rfl
            | false => exact False.elim (hs.pending hp)
          subst hout
          refine quiet_of_finished hz rfl ⟨?_, hsaves.mpr (h.saving hp)⟩
          simp [TcpConnection.started]

/-- In the middle of the upload, with one of the two bytes of the content read. -/
theorem quiet_after_error_sample : ∃ x y, Agents.Schedule Session.Step [.ok, .ok, .ok]
    (.accepted {} sampleStream, outDirectory []) x ∧
    x.1.conn.pending = some .readRequestContent ∧ Session.Step (.error 1) x y ∧
    ∀ ios z, Agents.Schedule Session.Step ios y z → Quiet x z := by
  obtain ⟨x, y, hx, hp, hy⟩ : ∃ x y, Agents.Schedule Session.Step [.ok, .ok, .ok]
      (.accepted {} sampleStream, outDirectory []) x ∧
      x.1.conn.pending = some .readRequestContent ∧ Session.Step (.error 1) x y :=
    ⟨_, _, .cons rfl (.cons rfl (.cons rfl .nil)), rfl, rfl⟩
  exact ⟨x, y, hx, hp, hy, (quiet_after_error_iff ⟨_, hx⟩ hy).mpr ⟨by simp [hp], by simp [hp]⟩⟩

/-- The write of the first SUCCESS fails, and the connection goes on to read. -/
theorem reads_after_error : ¬ ∀ (mConfig : Config) (stream : Bytes) (fs : FileSystem)
    (x y z : Session × FileSystem) (k : Nat) (ios : List Io),
    Session.Reachable mConfig stream fs x → Session.Step (.error k) x y →
    Agents.Schedule Session.Step ios y z → Quiet x z := by
  intro h
  have hx : Session.Reachable {} sampleStream (outDirectory []) _ := ⟨[.ok], .single rfl⟩
  have hq := h _ _ _ _ _ _ 0 [] hx rfl .nil
  exact absurd hq.1 (by decide)

end
end Horcrux
