import Horcrux.Asio
import Horcrux.Scheduler

namespace Horcrux
open Asio

/-- The operations of the server: the accept of a new connection, and the transfer that a
connection waits for. -/
inductive ServerOp where
  | accept (newConnection : Nat)
  | transfer (i : Nat)
  deriving DecidableEq

/-- What a call of `accept` on the non-blocking acceptor comes back with. `connection_aborted`
and `EPROTO` are one. -/
inductive AcceptResult (D : Type) where
  | socket (d : D)
  | interrupted
  | wouldBlock
  | aborted
  | failed

/-- What the calls in one `perform` return. -/
inductive Answer (D : Type) where
  | accept (results : List (AcceptResult D))
  | transfer (results : List SysResult)

/-- What an operation has when it is done: a socket or an error, or what its calls returned. -/
inductive Result (D : Type) where
  | accepted (socket : Option D)
  | transferred (results : List SysResult)

def Asio.Attempt.map {R R' : Type} (f : R → R') : Attempt R → Attempt R'
  | .notDone => .notDone
  | .done r => .done (f r)
  | .doneAndExhausted r => .doneAndExhausted (f r)

/-- The loop of `non_blocking_accept`, where `enable_connection_aborted` is not set. -/
def nonBlockingAccept {D : Type} : List (AcceptResult D) → Option (Attempt (Option D))
  | [] => none
  | .socket d :: _ => some (.done (some d))
  | .interrupted :: results => nonBlockingAccept results
  | .wouldBlock :: _ => some .notDone
  | .aborted :: _ => some .notDone
  | .failed :: _ => some (.done none)

/-- The answers after which the same call may go on returning at once: the end of a stream, an
error, and a client that is gone, behind which there may be another one. -/
def Answer.Lasting {D : Type} : Answer D → Prop
  | .accept results => .aborted ∈ results
  | .transfer results => nonBlockingRecv1 results = some (.done true 0)

namespace AsioSession

/-- What the calls of `recv` or `send` for the transfer at hand come to. With nothing to
transfer there are none. -/
def status (x : AsioSession) (results : List SysResult) : Option Status :=
  if x.buffers.prepare x.maxSize = 0 then some (.done false 0)
  else
    match x.conn.pending with
    | some (.sendResponse _ _) => nonBlockingSend1 results
    | _ => nonBlockingRecv1 results

/-- `do_perform` of a send and of a receive. A send is exhausted when it is short, a receive
when it has got nothing. -/
def attempt (x : AsioSession) (results : List SysResult) : Option (Attempt (List SysResult)) :=
  match x.conn.pending, x.status results with
  | none, _ => none
  | _, none => none
  | _, some .notDone => some .notDone
  | some (.sendResponse _ _), some (.done ec k) =>
    if k ≤ x.buffers.prepare x.maxSize ∧ (ec = false → 1 ≤ k) then
      some (if k < x.buffers.prepare x.maxSize then .doneAndExhausted results else .done results)
    else none
  | _, some (.done _ k) =>
    if k ≤ x.buffers.prepare x.maxSize ∧ k ≤ x.unread.length then
      some (if k = 0 then .doneAndExhausted results else .done results)
    else none

/-- The composed operation goes on with another transfer, which is its continuation. -/
def continues (x : AsioSession) (results : List SysResult) : Bool :=
  match x.status results with
  | some (.done ec k) =>
    match (resume x.buffers ec k).2 with
    | .transferSome _ => true
    | .handler _ _ => false
  | _ => false

end AsioSession

def AsyncOp.opType : AsyncOp → OpType
  | .sendResponse _ _ => .write
  | _ => .read

/-- What asio is asked for next by connection `i` with the socket `d`. A transfer of nothing
completes without a try, and with nothing to wait for the connection is destroyed. -/
def AsioSession.request {D : Type} (x : AsioSession) (i : Nat) (d : D) (isContinuation : Bool) :
    Request D ServerOp (Result D) :=
  match x.conn.pending with
  | none => .deregisterDescriptor d
  | some op =>
    if x.buffers.prepare x.maxSize = 0 then .post (.transfer i) (.transferred []) isContinuation
    else .startOp d op.opType (.transfer i) isContinuation

/-- The server with the sockets of its connections. `created` connections have been made. -/
structure ServerState (D : Type) where
  srv : AsioServer Nat
  sockets : Nat → Option D := fun _ => none
  created : Nat := 0

namespace ServerState
variable {D : Type}

/-- `startAccept` makes the next connection. -/
def startAccept (s : ServerState D) (acceptor : D) :
    ServerState D × Request D ServerOp (Result D) :=
  ({ s with created := s.created + 1 }, .startOp acceptor .read (.accept s.created) false)

/-- The completion of an accept, with `do_assign`, and `handle_accept`. -/
def handleAccept (s : ServerState D) (mConfig : Config) (incoming : Nat → Bytes) (acceptor : D)
    (newConnection : Nat) : Option D → ServerState D × List (Request D ServerOp (Result D))
  | none =>
    let s := { s with
      srv := s.srv.handleAccept newConnection mConfig (incoming newConnection) true }
    ((s.startAccept acceptor).1, [(s.startAccept acceptor).2])
  | some d =>
    let s := { s with
      srv := s.srv.handleAccept newConnection mConfig (incoming newConnection) false
      sockets := Function.update s.sockets newConnection (some d) }
    ((s.startAccept acceptor).1,
      [.registerDescriptor d,
        (AsioSession.accepted mConfig (incoming newConnection)).request newConnection d false,
        (s.startAccept acceptor).2])

/-- The completion of a transfer. What its calls have moved counts as moved from here on. -/
def transferred (s : ServerState D) (i : Nat) (results : List SysResult) :
    Option (ServerState D × List (Request D ServerOp (Result D))) := do
  let x ← s.srv.connections i
  let d ← s.sockets i
  match x.perform results s.srv.fs with
  | .next (x', fs') =>
    some ({ s with srv := ⟨fs', Function.update s.srv.connections i (some x')⟩ },
      [x'.request i d (x.continues results)])
  | _ => none

end ServerState

/-- The server as a program for the scheduler. -/
def serverProgram {D : Type} (mConfig : Config) (incoming : Nat → Bytes) (acceptor : D) :
    Program D ServerOp (Answer D) (Result D) (ServerState D) where
  perform s o a :=
    match o, a with
    | .accept _, .accept results => (nonBlockingAccept results).map (·.map .accepted)
    | .transfer i, .transfer results =>
      (s.srv.connections i).bind fun x => (x.attempt results).map (·.map .transferred)
    | _, _ => none
  complete s o r :=
    match o, r with
    | .accept k, .accepted socket => some (s.handleAccept mConfig incoming acceptor k socket)
    | .transfer i, .transferred results => s.transferred i results
    | _, _ => none
  aborted
    | .accept _ => .accepted none
    | .transfer _ => .transferred [.failed]

/-- `main` of the server, up to where the constructor of TcpServer makes its requests. -/
def serverMain {D : Type} (fs : FileSystem) (acceptor : D) :
    Scheduler D ServerOp (Result D) (ServerState D) :=
  let s : ServerState D := ⟨.listening fs, fun _ => none, 0⟩
  .initial (s.startAccept acceptor).1 [.registerDescriptor acceptor, (s.startAccept acceptor).2]

end Horcrux
