import Horcrux.TcpServer
import Horcrux.Lib.SharedPtr
import Mathlib.Data.Multiset.Bind
import Mathlib.Data.Multiset.Filter

namespace Horcrux

/-- The completion handlers of the server, each with the connection that it has captured. -/
inductive Handler where
  | accept (newConnection : Nat)
  | completion (op : AsyncOp) (self : Nat)
  deriving DecidableEq

namespace Handler

def connection : Handler → Nat
  | .accept newConnection => newConnection
  | .completion _ self => self

/-- The shared pointers that a handler holds. That of sendResponse holds `self` and a
`NEXT_OP`, which has captured `self` too. -/
def captures : Handler → List Nat
  | .accept newConnection => [newConnection]
  | .completion (.sendResponse _ _) self => [self, self]
  | .completion _ self => [self]

end Handler

/-- The connection that createNew makes, before its Start. -/
def TcpConnection.unstarted (mConfig : Config) : TcpConnection :=
  { createNew mConfig with pending := none, trace := [] }

/-- The operations that a connection has started since it was `c`. -/
def TcpConnection.startedSince (c' c : TcpConnection) : List AsyncOp :=
  (c'.trace.drop c.trace.length).filterMap fun
    | .started op => some op
    | .saved => none

/-- The operation `op` of the connection completes, whatever else it may have started. -/
def Session.completeOp (s : Session) (op : AsyncOp) (io : Io) (fs : FileSystem) :
    Outcome (Session × FileSystem) :=
  { s with conn := { s.conn with pending := some op } }.complete io fs

/-- The server with its memory. The connections live on the heap, where only the handlers
of the io_context hold pointers to them; `created` of them have been made so far, and the
number of an object is its address. -/
structure IoContext where
  fs : FileSystem
  heap : SharedPtr.Heap Session := .empty
  handlers : Multiset Handler := 0
  created : Nat := 0

namespace IoContext

/-- The pointers in use while no handler runs. -/
def pointers (m : IoContext) : Multiset Nat := m.handlers.bind fun h => h.captures

/-- asio keeps the handler of an operation that was started. -/
def submit (m : IoContext) (h : Handler) : IoContext :=
  { m with heap := m.heap.copies h.captures, handlers := h ::ₘ m.handlers }

/-- A connection starts an operation, with `self` as a local variable. -/
def start (m : IoContext) (self : Nat) (op : AsyncOp) : IoContext :=
  let m := { m with heap := m.heap.copy self }
  let m := m.submit (.completion op self)
  { m with heap := m.heap.drop self }

/-- A member function of the connection has made `after` of it. -/
def member (m : IoContext) (self : Nat) (before after : Session) : IoContext :=
  (after.conn.startedSince before.conn).foldl (fun m op => m.start self op)
    { m with heap := m.heap.write self after }

/-- `newConnection` is a local variable here. -/
def startAccept (m : IoContext) (mConfig : Config) : IoContext :=
  let newConnection := m.created
  let m := { m with
    heap := m.heap.make newConnection ⟨.unstarted mConfig, []⟩, created := m.created + 1 }
  let m := m.submit (.accept newConnection)
  { m with heap := m.heap.drop newConnection }

/-- The constructor of TcpServer. -/
def listening (mConfig : Config) (fs : FileSystem) : IoContext :=
  ({ fs := fs } : IoContext).startAccept mConfig

/-- `newConnection->Start()`. A pointer to no object has no meaning. -/
def startConnection (m : IoContext) (newConnection : Nat) (stream : Bytes) : Option IoContext :=
  (m.heap.object newConnection).map fun s =>
    m.member newConnection s ⟨s.conn.readPreRequestHeader, stream⟩

/-- `newConnection` is passed by value. -/
def handleAccept (m : IoContext) (mConfig : Config) (newConnection : Nat) (stream : Bytes)
    (error : Bool) : Option IoContext := do
  let m := { m with heap := m.heap.copy newConnection }
  let m ← if !error then m.startConnection newConnection stream else some m
  let m := m.startAccept mConfig
  some { m with heap := m.heap.drop newConnection }

/-- A handler that has run is destroyed, and what it has captured with it. -/
def destroy (m : IoContext) (h : Handler) : IoContext :=
  { m with heap := m.heap.drops h.captures }

/-- The io_context, which has taken the handler out, runs it. -/
def invoke (m : IoContext) (mConfig : Config) (incoming : Nat → Bytes) (h : Handler) (io : Io) :
    Outcome IoContext :=
  match h with
  | .accept newConnection =>
    .ofOption ((m.handleAccept mConfig newConnection (incoming newConnection) (io ≠ .ok)).map
      (·.destroy h))
  | .completion op self =>
    match m.heap.object self with
    | none => .undefined
    | some s =>
      match s.completeOp op io m.fs with
      | .blocked => .blocked
      | .undefined => .undefined
      | .next (s', fs') => .next (({ m with fs := fs' }.member self s s').destroy h)

/-- Any handler may be the next one, with any result that asio may report. -/
inductive Step (mConfig : Config) (incoming : Nat → Bytes) :
    Handler × Io → IoContext → IoContext → Prop
  | run : m.handlers = h ::ₘ rest →
      { m with handlers := rest }.invoke mConfig incoming h io = .next m' →
      Step mConfig incoming (h, io) m m'

end IoContext
end Horcrux
