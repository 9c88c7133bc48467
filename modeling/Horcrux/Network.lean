import Horcrux.Client
import Horcrux.Session

namespace Horcrux

/-- The client and one server connection, joined by two reliable FIFO byte channels.
`toServer` and `toClient` are in flight; `unsent` is what the server's async_write has
not handed over yet; `arrived` waits in the client's socket, as the session's `unread`
does in the server's. -/
structure Network where
  client : ClientMain
  session : Session
  fs : FileSystem
  toServer : Bytes := []
  unsent : Bytes := []
  toClient : Bytes := []
  arrived : Bytes := []

inductive Agent where
  | client
  | server
  | transmit
  | deliverToServer
  | deliverToClient
  deriving DecidableEq

/-- The bytes that a freshly started async_write has to hand over. -/
def TcpConnection.outgoing (c : TcpConnection) : Bytes :=
  match c.pending with
  | some (.sendResponse _ _) => c.mMessageBuffer
  | _ => []

namespace Network

def connected (client : ClientMain) (mConfig : Config) (fs : FileSystem) : Network :=
  { client := client, session := .accepted mConfig [], fs := fs }

/-- `write_some` transfers its whole buffer and `read_some` returns one whole response.
On a stream that the server has closed and that is empty, `read_some` fails. -/
def clientStep (n : Network) : Option Network :=
  match n.client.buffer with
  | some b => some { n with
      client := n.client.resume (.wrote b.length), toServer := n.toServer ++ b }
  | none =>
    if n.client.reading then
      if 7 ≤ n.arrived.length then
        some { n with
          client := n.client.resume (.read (n.arrived.take 7)), arrived := n.arrived.drop 7 }
      else if n.arrived = [] ∧ n.toClient = [] ∧ n.session.conn.pending = none then
        some { n with client := n.client.resume .readError }
      else none
    else none

/-- The pending operation of the connection completes with `io`. -/
def runHandler (n : Network) (io : Io) : Option Network :=
  match n.session.complete io n.fs with
  | .next (s, fs) => some { n with session := s, fs := fs, unsent := s.conn.outgoing }
  | _ => none

/-- A write completes when all its bytes are handed over. A read completes as soon as
its bytes are there, and fails when the client has closed and no more can come. -/
def serverStep (n : Network) : Option Network :=
  match n.session.conn.pending with
  | none => none
  | some (.sendResponse _ _) => if n.unsent = [] then n.runHandler .ok else none
  | some _ =>
    if n.session.conn.requested.getD 0 ≤ n.session.unread.length then n.runHandler .ok
    else if n.client.phase = .done ∧ n.toServer = [] then
      n.runHandler (.error n.session.unread.length)
    else none

def transmitStep (n : Network) : Option Network :=
  match n.session.conn.pending, n.unsent with
  | some (.sendResponse _ _), b :: bs =>
    some { n with unsent := bs, toClient := n.toClient ++ [b] }
  | _, _ => none

def deliverToServerStep (n : Network) : Option Network :=
  match n.toServer with
  | b :: bs => some { n with
      toServer := bs, session := { n.session with unread := n.session.unread ++ [b] } }
  | [] => none

def deliverToClientStep (n : Network) : Option Network :=
  match n.toClient with
  | b :: bs => some { n with toClient := bs, arrived := n.arrived ++ [b] }
  | [] => none

def step (a : Agent) (n : Network) : Option Network :=
  match a with
  | .client => n.clientStep
  | .server => n.serverStep
  | .transmit => n.transmitStep
  | .deliverToServer => n.deliverToServerStep
  | .deliverToClient => n.deliverToClientStep

def Step (a : Agent) (n m : Network) : Prop := n.step a = some m

/-- The client's move when `write_some` takes of its buffer only what `takes` says. Main is in
a phase at most once, so that the phase tells the calls apart. -/
def shortClientStep (takes : Phase → Nat) (n : Network) : Option Network :=
  match n.client.buffer with
  | some b => some { n with
      client := n.client.resume (.wrote (min (takes n.client.phase) b.length))
      toServer := n.toServer ++ b.take (takes n.client.phase) }
  | none => n.clientStep

def shortStep (takes : Phase → Nat) (a : Agent) (n : Network) : Option Network :=
  match a with
  | .client => n.shortClientStep takes
  | _ => n.step a

/-- The network in which `write_some` may take less than its buffer. -/
def ShortStep (takes : Phase → Nat) (a : Agent) (n m : Network) : Prop :=
  n.shortStep takes a = some m

end Network
end Horcrux
