import Horcrux.TcpServer

namespace Horcrux

namespace Asio

/-- What a call of `recv` or `send` on a non-blocking socket comes back with: a number of
bytes, or an error code. `would_block` and `try_again` are one. -/
inductive SysResult where
  | bytes (n : Nat)
  | interrupted
  | wouldBlock
  | failed
  deriving DecidableEq

/-- The status of a reactor operation, with its error code and its byte count. -/
inductive Status where
  | notDone
  | done (ec : Bool) (bytesTransferred : Nat)
  deriving DecidableEq

/-- The loop of `non_blocking_recv1` over the results of its calls of `recv`. It goes on
after an interrupt; on a stream, no bytes are the end of it. -/
def nonBlockingRecv1 : List SysResult → Option Status
  | [] => none
  | .bytes 0 :: _ => some (.done true 0)
  | .bytes (n + 1) :: _ => some (.done false (n + 1))
  | .interrupted :: results => nonBlockingRecv1 results
  | .wouldBlock :: _ => some .notDone
  | .failed :: _ => some (.done true 0)

/-- The loop of `non_blocking_send1`. -/
def nonBlockingSend1 : List SysResult → Option Status
  | [] => none
  | .bytes n :: _ => some (.done false n)
  | .interrupted :: results => nonBlockingSend1 results
  | .wouldBlock :: _ => some .notDone
  | .failed :: _ => some (.done true 0)

def defaultMaxTransferSize : Nat := 65536

/-- The completion condition `transfer_all`. -/
def transferAll (ec : Bool) : Nat := if ec then 0 else defaultMaxTransferSize

/-- `consuming_single_buffer`: the size of the buffer, and how much of it is done. -/
structure ConsumingBuffer where
  size : Nat
  totalConsumed : Nat := 0
  deriving DecidableEq

namespace ConsumingBuffer

def empty (b : ConsumingBuffer) : Bool := b.totalConsumed ≥ b.size

/-- The size of `asio::buffer(buffer_ + total_consumed_, max_size)`. -/
def prepare (b : ConsumingBuffer) (maxSize : Nat) : Nat :=
  min (b.size - min b.totalConsumed b.size) maxSize

def consume (b : ConsumingBuffer) (size : Nat) : ConsumingBuffer :=
  { b with totalConsumed := b.totalConsumed + size }

end ConsumingBuffer

/-- What a composed operation does next: one more transfer, or a call of its handler. -/
inductive Resumption where
  | transferSome (maxSize : Nat)
  | handler (ec : Bool) (bytesTransferred : Nat)
  deriving DecidableEq

/-- `operator()` of `read_op` and of `write_op` when a transfer has completed. -/
def resume (b : ConsumingBuffer) (ec : Bool) (bytesTransferred : Nat) :
    ConsumingBuffer × Resumption :=
  let b := b.consume bytesTransferred
  if (!ec && bytesTransferred = 0) || b.empty then (b, .handler ec b.totalConsumed)
  else if transferAll ec = 0 then (b, .handler ec b.totalConsumed)
  else (b, .transferSome (transferAll ec))

/-- Memory after `data` was written to it from `offset` on. -/
def overwrite (memory : Bytes) (offset : Nat) (data : Bytes) : Bytes :=
  memory.take offset ++ data.take (memory.length - offset) ++ memory.drop (offset + data.length)

@[simp] theorem length_overwrite (memory : Bytes) (offset : Nat) (data : Bytes) :
    (overwrite memory offset data).length = memory.length := by
  simp only [overwrite, List.length_append, List.length_take, List.length_drop]
  omega

/-- The same for an array. -/
def overwriteArray {n : Nat} (memory : CharArray n) (offset : Nat) (data : Bytes) :
    CharArray n :=
  ⟨overwrite memory.val offset data, by rw [length_overwrite, memory.property]⟩

end Asio

namespace TcpConnection
open Asio

/-- The size of the `asio::buffer` of the pending operation. -/
def bufferSize (c : TcpConnection) : Nat :=
  match c.pending with
  | some .readPreRequestHeader => 16
  | some .readRequestHeader => 24
  | some .readRequestContent => c.contentBufferSize
  | some (.sendResponse _ _) => c.mMessageBuffer.length
  | none => 0

/-- The pending read puts bytes into its buffer. -/
def fillBuffer (c : TcpConnection) (offset : Nat) (data : Bytes) : TcpConnection :=
  match c.pending with
  | some .readPreRequestHeader =>
    { c with mPreRequestHeaderBuffer := overwriteArray c.mPreRequestHeaderBuffer offset data }
  | some .readRequestHeader =>
    { c with mRequestHeaderBuffer := overwriteArray c.mRequestHeaderBuffer offset data }
  | some .readRequestContent =>
    { c with mMessageBuffer := overwrite c.mMessageBuffer offset data }
  | _ => c

end TcpConnection

/-- A connection together with asio's composed operation on it: the consuming buffer, the
size that its next transfer may have, the bytes of the peer that no `recv` has taken yet,
and the bytes that `send` has taken so far. -/
structure AsioSession where
  conn : TcpConnection
  buffers : Asio.ConsumingBuffer
  maxSize : Nat
  unread : Bytes
  sent : Bytes := []

namespace AsioSession
open Asio

/-- The composed operation that the connection has just started is entered first. -/
def started (x : AsioSession) (c : TcpConnection) : AsioSession :=
  { x with conn := c, buffers := ⟨c.bufferSize, 0⟩, maxSize := transferAll false }

def accepted (mConfig : Config) (stream : Bytes) : AsioSession :=
  { conn := .createNew mConfig, buffers := ⟨16, 0⟩, maxSize := transferAll false, unread := stream }

/-- The completion handler of the pending operation runs, on what is in its buffer. -/
def handler (x : AsioSession) (ec : Bool) (fs : FileSystem) : Outcome (AsioSession × FileSystem) :=
  match x.conn.pending, ec with
  | none, _ => .blocked
  | some (.sendResponse _ next), _ =>
    .ofOption ((x.conn.onResponse next fs).map fun r => (x.started r.1, r.2))
  | some _, true => .next (x.started x.conn.finish, fs)
  | some .readPreRequestHeader, false =>
    .next (x.started (x.conn.onPreRequestHeader x.conn.mPreRequestHeaderBuffer), fs)
  | some .readRequestHeader, false =>
    .next (x.started (x.conn.onRequestHeader x.conn.mRequestHeaderBuffer), fs)
  | some .readRequestContent, false =>
    .ofOption ((x.conn.onRequestContent (x.conn.mMessageBuffer.take x.conn.contentBufferSize)).map
      fun c => (x.started c, fs))

/-- A transfer has completed, and the composed operation goes on with it. -/
def transferred (x : AsioSession) (ec : Bool) (bytesTransferred : Nat) (fs : FileSystem) :
    Outcome (AsioSession × FileSystem) :=
  match resume x.buffers ec bytesTransferred with
  | (b, .transferSome maxSize) => .next ({ x with buffers := b, maxSize := maxSize }, fs)
  | (b, .handler ec _) => { x with buffers := b }.handler ec fs

/-- `async_read_some` is tried, and `results` are what the calls of `recv` return in it. With
nothing to read there is no call, and when it is not done the reactor will try again. No
call takes more than it was offered or than is there. -/
def recvSome (x : AsioSession) (results : List SysResult) (fs : FileSystem) :
    Outcome (AsioSession × FileSystem) :=
  if x.buffers.prepare x.maxSize = 0 then x.transferred false 0 fs
  else
    match nonBlockingRecv1 results with
    | none => .blocked
    | some .notDone => .next (x, fs)
    | some (.done ec k) =>
      if k ≤ x.buffers.prepare x.maxSize ∧ k ≤ x.unread.length then
        { x with
          conn := x.conn.fillBuffer x.buffers.totalConsumed (x.unread.take k)
          unread := x.unread.drop k }.transferred ec k fs
      else .blocked

/-- `async_write_some` is tried. A call of `send` that does not fail takes a byte or more. -/
def sendSome (x : AsioSession) (results : List SysResult) (fs : FileSystem) :
    Outcome (AsioSession × FileSystem) :=
  if x.buffers.prepare x.maxSize = 0 then x.transferred false 0 fs
  else
    match nonBlockingSend1 results with
    | none => .blocked
    | some .notDone => .next (x, fs)
    | some (.done ec k) =>
      if k ≤ x.buffers.prepare x.maxSize ∧ (ec = false → 1 ≤ k) then
        { x with
          sent := x.sent ++ (x.conn.mMessageBuffer.drop x.buffers.totalConsumed).take k
        }.transferred ec k fs
      else .blocked

/-- The transfer at hand is tried once. -/
def perform (x : AsioSession) (results : List SysResult) (fs : FileSystem) :
    Outcome (AsioSession × FileSystem) :=
  match x.conn.pending with
  | none => .blocked
  | some (.sendResponse _ _) => x.sendSome results fs
  | some _ => x.recvSome results fs

def Step (results : List SysResult) (x y : AsioSession × FileSystem) : Prop :=
  x.1.perform results x.2 = .next y

end AsioSession

/-- The server above the system calls: its connections share the filesystem. -/
structure AsioServer (ι : Type) where
  fs : FileSystem
  connections : ι → Option AsioSession

namespace AsioServer
variable {ι : Type} [DecidableEq ι]

def listening (fs : FileSystem) : AsioServer ι := ⟨fs, fun _ => none⟩

/-- `handle_accept`: with an error the new connection is dropped unstarted, and either way
the acceptor waits for the next client. -/
def handleAccept (srv : AsioServer ι) (i : ι) (mConfig : Config) (stream : Bytes) (error : Bool) :
    AsioServer ι :=
  if !error then
    { srv with
      connections := Function.update srv.connections i (some (.accepted mConfig stream)) }
  else srv

/-- What happens to client `i`: an accept with or without an error, or one more try of the
transfer that its connection waits for. -/
inductive Act (ι : Type) where
  | accept (i : ι) (error : Bool)
  | perform (i : ι) (results : List Asio.SysResult)

/-- `os` says which results the system calls may have. -/
inductive Step (mConfig : Config) (incoming : ι → Bytes)
    (os : AsioSession → List Asio.SysResult → Prop) : Act ι → AsioServer ι → AsioServer ι → Prop
  | accept : srv.connections i = none →
      Step mConfig incoming os (.accept i error) srv
        (srv.handleAccept i mConfig (incoming i) error)
  | perform : srv.connections i = some x → os x results →
      x.perform results srv.fs = .next (x', fs') →
      Step mConfig incoming os (.perform i results) srv
        ⟨fs', Function.update srv.connections i (some x')⟩

end AsioServer
end Horcrux
