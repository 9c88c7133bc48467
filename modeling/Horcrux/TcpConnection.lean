import Horcrux.Requests

namespace Horcrux
open Save Utils

structure Config where
  mMaxNumHorcruxAccepted : UInt64 := 20
  mMaxTotalSizeAccepted : UInt64 := 10000000

/-- The three continuations that the handlers pass to sendResponse as `NEXT_OP`. -/
inductive NextOp where
  | readRequestHeader
  | saveHorcruxes
  | nothing
  deriving DecidableEq

/-- The asynchronous operations a connection starts. -/
inductive AsyncOp where
  | readPreRequestHeader
  | readRequestHeader
  | readRequestContent
  | sendResponse (outcome : Bool) (next : NextOp)
  deriving DecidableEq

/-- What a connection does that an observer can see. -/
inductive Event where
  | started (op : AsyncOp)
  | saved
  deriving DecidableEq

/-- The members of the class. `pending` is the operation that asio has not completed
yet, and `trace` all that the connection has done, oldest first. -/
structure TcpConnection where
  mConfig : Config := {}
  mPreRequestHeaderBuffer : CharArray 16 := ⟨List.replicate 16 0, rfl⟩
  mPreRequestHeader : PreRequestHeader := {}
  mRequestHeaderBuffer : CharArray 24 := ⟨List.replicate 24 0, rfl⟩
  mRequestHeader : Request.Header := {}
  mMessageBuffer : Bytes := []
  mCurrentRequestHorcruxes : List (Option HorcruxData) := []
  pending : Option AsyncOp := none
  trace : List Event := []

/-- `resize` of a string or a vector. -/
def resize {α : Type} (xs : List α) (n : Nat) (fill : α) : List α :=
  xs.take n ++ List.replicate (n - xs.length) fill

def kOutPath : Path := ["out"]

def horcruxName (uuid : UInt64) (counter : UInt32) : String :=
  toString uuid.toNat ++ ".hcx." ++ toString counter.toNat

/-- `kOutPath / horcruxPath`. -/
def horcruxPath (uuid : UInt64) (counter : UInt32) : Path :=
  kOutPath ++ [horcruxName uuid counter]

/-- The loop of saveHorcruxes. What saveFile returns is dropped; `hcx->mContent` on an
empty optional is undefined. -/
def saveLoop (uuid : UInt64) :
    List (Option HorcruxData) → UInt32 → FileSystem → Option FileSystem
  | [], _, fs => some fs
  | none :: _, _, _ => none
  | some hcx :: rest, counter, fs =>
    saveLoop uuid rest (counter + 1) (saveFile fs hcx.mContent (horcruxPath uuid counter)).2

def response (outcome : Bool) : Bytes := if outcome then chars "SUCCESS" else chars "FAILURE"

namespace TcpConnection

def saveHorcruxes (c : TcpConnection) (fs : FileSystem) : Option FileSystem :=
  saveLoop c.mPreRequestHeader.mUuid c.mCurrentRequestHorcruxes 0 fs

def checkPreRequestHeader (c : TcpConnection) : Bool :=
  if c.mPreRequestHeader.mNumHorcruxes.toUInt64 > c.mConfig.mMaxNumHorcruxAccepted then false
  else if c.mPreRequestHeader.mTotalSize.toUInt64 > c.mConfig.mMaxTotalSizeAccepted then false
  else true

def checkRequestHeader (c : TcpConnection) : Bool :=
  if c.mRequestHeader.mUuid ≠ c.mPreRequestHeader.mUuid then false
  else if h : c.mRequestHeader.mIndex.toNat ≥ c.mCurrentRequestHorcruxes.length then false
  else if c.mCurrentRequestHorcruxes[c.mRequestHeader.mIndex.toNat].isSome then false
  else true

def start (c : TcpConnection) (op : AsyncOp) : TcpConnection :=
  { c with pending := some op, trace := c.trace ++ [.started op] }

/-- The handler returns and leaves no operation behind. -/
def finish (c : TcpConnection) : TcpConnection := { c with pending := none }

def sendResponse (c : TcpConnection) (outcome : Bool) (next : NextOp) : TcpConnection :=
  { c with mMessageBuffer := response outcome }.start (.sendResponse outcome next)

def readPreRequestHeader (c : TcpConnection) : TcpConnection := c.start .readPreRequestHeader

def readRequestHeader (c : TcpConnection) : TcpConnection := c.start .readRequestHeader

def readRequestContent (c : TcpConnection) : TcpConnection := c.start .readRequestContent

/-- `asio::buffer(mMessageBuffer, mRequestHeader.mContentSize)`, whose size never goes
beyond that of the string. -/
def contentBufferSize (c : TcpConnection) : Nat :=
  min c.mMessageBuffer.length c.mRequestHeader.mContentSize.toNat

/-- `createNew` and `Start`. -/
def createNew (mConfig : Config) : TcpConnection :=
  ({ mConfig := mConfig } : TcpConnection).readPreRequestHeader

/-- The completion handler of ReadPreRequestHeader. -/
def onPreRequestHeader (c : TcpConnection) (buffer : CharArray 16) : TcpConnection :=
  let c := { c with
    mPreRequestHeaderBuffer := buffer, mPreRequestHeader := deserializeHeader buffer }
  if c.checkPreRequestHeader then
    { c with
      mCurrentRequestHorcruxes := resize c.mCurrentRequestHorcruxes
        c.mPreRequestHeader.mNumHorcruxes.toNat none }.sendResponse true .readRequestHeader
  else c.sendResponse false .nothing

/-- The completion handler of ReadRequestHeader. -/
def onRequestHeader (c : TcpConnection) (buffer : CharArray 24) : TcpConnection :=
  let c := { c with mRequestHeaderBuffer := buffer, mRequestHeader := deserializeHeader buffer }
  if c.checkRequestHeader then
    { c with
      mMessageBuffer := resize c.mMessageBuffer
        c.mRequestHeader.mContentSize.toNat 0 }.readRequestContent
  else c.sendResponse false .nothing

/-- The completion handler of ReadRequestContent. The bytes went to the front of
mMessageBuffer; an index past the end of the vector is undefined. -/
def onRequestContent (c : TcpConnection) (bytes : Bytes) : Option TcpConnection :=
  let c := { c with mMessageBuffer := bytes ++ c.mMessageBuffer.drop bytes.length }
  if c.mRequestHeader.mIndex.toNat < c.mCurrentRequestHorcruxes.length then
    let c := { c with
      mCurrentRequestHorcruxes := c.mCurrentRequestHorcruxes.set
        c.mRequestHeader.mIndex.toNat (some ⟨c.mMessageBuffer, []⟩) }
    let messageComplete := c.mCurrentRequestHorcruxes.all Option.isSome
    some (if messageComplete then c.sendResponse true .saveHorcruxes
      else c.sendResponse true .readRequestHeader)
  else none

/-- The completion handler of sendResponse. writeHandler only logs, so the error code
has no part in what follows. -/
def onResponse (c : TcpConnection) (next : NextOp) (fs : FileSystem) :
    Option (TcpConnection × FileSystem) :=
  match next with
  | .readRequestHeader => some (c.readRequestHeader, fs)
  | .saveHorcruxes => do
    let fs' ← c.saveHorcruxes fs
    pure ({ c.finish with trace := c.trace ++ [.saved] }, fs')
  | .nothing => some (c.finish, fs)

end TcpConnection
end Horcrux
