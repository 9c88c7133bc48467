import Horcrux.TcpConnection
import Horcrux.Lib.Agents

namespace Horcrux

/-- How asio completes an operation: with success, or with an error code after some
number of bytes. -/
inductive Io where
  | ok
  | error (length : Nat)
  deriving DecidableEq

/-- A completion may not happen now, may run into undefined behaviour, or may lead to
a next state. -/
inductive Outcome (α : Type) where
  | blocked
  | undefined
  | next (a : α)

def Outcome.ofOption {α : Type} : Option α → Outcome α
  | none => .undefined
  | some a => .next a

/-- A connection together with the bytes of its peer that no read has consumed yet. -/
structure Session where
  conn : TcpConnection
  unread : Bytes

/-- `asio::async_read` into a buffer of `n` bytes completes with exactly `n` bytes. -/
def receive (n : Nat) (unread : Bytes) : Option (CharArray n × Bytes) :=
  if h : n ≤ unread.length then
    some (⟨unread.take n, by simp [h]⟩, unread.drop n)
  else none

/-- The size of the buffer that the pending read fills. -/
def TcpConnection.requested (c : TcpConnection) : Option Nat :=
  match c.pending with
  | some .readPreRequestHeader => some 16
  | some .readRequestHeader => some 24
  | some .readRequestContent => some c.contentBufferSize
  | _ => none

namespace Session

def accepted (mConfig : Config) (stream : Bytes) : Session :=
  ⟨.createNew mConfig, stream⟩

/-- A read fails after fewer bytes than it was asked for, and its handler only logs. -/
def fail (s : Session) (length : Nat) (fs : FileSystem) : Outcome (Session × FileSystem) :=
  match s.conn.requested with
  | some n =>
    if length < n ∧ length ≤ s.unread.length then
      .next (⟨s.conn.finish, s.unread.drop length⟩, fs)
    else .blocked
  | none => .blocked

/-- The pending operation completes and its handler runs to the end. -/
def complete (s : Session) (io : Io) (fs : FileSystem) : Outcome (Session × FileSystem) :=
  match s.conn.pending, io with
  | none, _ => .blocked
  | some (.sendResponse _ next), _ =>
    .ofOption ((s.conn.onResponse next fs).map fun r => (⟨r.1, s.unread⟩, r.2))
  | some _, .error length => s.fail length fs
  | some .readPreRequestHeader, .ok =>
    match receive 16 s.unread with
    | none => .blocked
    | some (buffer, rest) => .next (⟨s.conn.onPreRequestHeader buffer, rest⟩, fs)
  | some .readRequestHeader, .ok =>
    match receive 24 s.unread with
    | none => .blocked
    | some (buffer, rest) => .next (⟨s.conn.onRequestHeader buffer, rest⟩, fs)
  | some .readRequestContent, .ok =>
    match receive s.conn.contentBufferSize s.unread with
    | none => .blocked
    | some (bytes, rest) =>
      .ofOption ((s.conn.onRequestContent bytes).map fun c => (⟨c, rest⟩, fs))

/-- One handler of the connection runs, on whatever asio reports. -/
def Step (io : Io) (x y : Session × FileSystem) : Prop := x.1.complete io x.2 = .next y

/-- The states of one connection whose peer sends `stream`. -/
def Reachable (mConfig : Config) (stream : Bytes) (fs : FileSystem)
    (x : Session × FileSystem) : Prop :=
  ∃ ios, Agents.Schedule Step ios (accepted mConfig stream, fs) x

end Session
end Horcrux
