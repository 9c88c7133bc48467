import Horcrux.TcpConnection

namespace Horcrux
open Save Utils

/-- What a socket call of the client gives back: `write_some` and `read_some` with a
length, or an error code. -/
inductive SocketResult where
  | wrote (length : Nat)
  | writeError
  | read (bytes : Bytes)
  | readError

/-- Where the client's main stands: its next socket call, with the request at hand and
the requests that its send loop has still to ship. -/
inductive Phase where
  | sendPreRequest
  | readPreResponse
  | sendHeader (request : Request) (rest : List Request)
  | sendContent (request : Request) (rest : List Request)
  | readResponse (rest : List Request)
  | done
  deriving DecidableEq

/-- The variables of main. `padding` holds the indeterminate padding bytes of each
request header object, and `verdicts` what the calls of readResponse returned. -/
structure ClientMain where
  horcruxes : List HorcruxData := []
  preRequestHeader : PreRequestHeader := {}
  padding : UInt32 → CharArray 4
  phase : Phase
  verdicts : List Bool := []

/-- `none` is the undefined behaviour of split. -/
def getHorcruxes (fs : FileSystem) (path : Path) (mNumSplits : UInt32) :
    Option (List HorcruxData) :=
  match loadFile fs path with
  | some binaries => Client.BasicFileSplitter.split mNumSplits binaries
  | none => some []

def readResponse (bytes : Bytes) : Bool := bytes = chars "SUCCESS"

namespace ClientMain

/-- Main with the horcruxes at hand; without any it returns before it sends a byte. -/
def withHorcruxes (uuid : UInt64) (padding : UInt32 → CharArray 4)
    (horcruxes : List HorcruxData) : ClientMain :=
  if horcruxes.isEmpty then { padding := padding, phase := .done }
  else
    { horcruxes := horcruxes
      preRequestHeader := PreRequestHeader.fromHorcruxes uuid horcruxes
      padding := padding
      phase := .sendPreRequest }

/-- Main once the socket is connected. A split without meaning ends the program. -/
def connected (fs : FileSystem) (mInputPath : Path) (mHorcruxCount : UInt32) (uuid : UInt64)
    (padding : UInt32 → CharArray 4) : ClientMain :=
  match getHorcruxes fs mInputPath mHorcruxCount with
  | some horcruxes => withHorcruxes uuid padding horcruxes
  | none => { padding := padding, phase := .done }

/-- The head of the send loop. -/
def sendLoop : List Request → Phase
  | [] => .done
  | request :: rest => .sendHeader request rest

/-- The buffer that the next call of `write_some` gets. -/
def buffer (c : ClientMain) : Option Bytes :=
  match c.phase with
  | .sendPreRequest => some (serializeHeader c.preRequestHeader noPadding).val
  | .sendHeader request _ =>
    some (serializeHeader request.mHeader (c.padding request.mHeader.mIndex)).val
  | .sendContent request _ => some request.mContent
  | _ => none

/-- The next call is `read_some`. -/
def reading (c : ClientMain) : Bool :=
  match c.phase with
  | .readPreResponse | .readResponse _ => true
  | _ => false

/-- Main goes on with the result of its socket call. How many bytes `write_some` took
is only logged; a FAILURE to a request is logged too, and the loop goes on. -/
def resume (c : ClientMain) (result : SocketResult) : ClientMain :=
  match c.phase, result with
  | .sendPreRequest, .wrote _ => { c with phase := .readPreResponse }
  | .sendPreRequest, .writeError => { c with phase := .done }
  | .sendHeader request rest, .wrote _ => { c with phase := .sendContent request rest }
  | .sendHeader _ rest, .writeError => { c with phase := sendLoop rest }
  | .sendContent _ rest, .wrote _ => { c with phase := .readResponse rest }
  | .sendContent _ rest, .writeError => { c with phase := sendLoop rest }
  | .readPreResponse, .read bytes =>
    { c with
      verdicts := c.verdicts ++ [Horcrux.readResponse bytes]
      phase := if Horcrux.readResponse bytes then
        sendLoop (Request.fromHorcruxes c.preRequestHeader.mUuid c.horcruxes) else .done }
  | .readResponse rest, .read bytes =>
    { c with verdicts := c.verdicts ++ [Horcrux.readResponse bytes], phase := sendLoop rest }
  | .readPreResponse, .readError => { c with phase := .done }
  | .readResponse _, .readError => { c with phase := .done }
  | _, _ => c

/-- A socket call of main: `write_some` with its buffer and what it returns, or `read_some`. -/
inductive SocketCall where
  | writeSome (buffer : Bytes) (length : Nat)
  | readSome
  deriving DecidableEq

/-- The contract of `write_some`: it sends at least one byte of a buffer that has one. -/
def Transfers (buffer : Bytes) (length : Nat) : Prop :=
  length ≤ buffer.length ∧ (buffer ≠ [] → 1 ≤ length)

/-- One socket call of main, while the server keeps answering SUCCESS. -/
inductive Call : SocketCall → ClientMain → ClientMain → Prop
  | writeSome : c.buffer = some b → Transfers b k → Call (.writeSome b k) c (c.resume (.wrote k))
  | readSome : c.reading = true → Call .readSome c (c.resume (.read (response true)))

/-- The bytes that the calls have put on the wire. -/
def wire : List SocketCall → Bytes
  | [] => []
  | .writeSome b k :: calls => b.take k ++ wire calls
  | .readSome :: calls => wire calls

end ClientMain

/-- join.cpp's getFileName, whose index is an `int32_t`. -/
def getFileName (uuid : UInt64) (index : Int32) : String :=
  toString uuid.toNat ++ ".hcx." ++ toString index.toInt

/-- join.cpp's loop; `value()` of a missing file throws. -/
def joinFiles (fs : FileSystem) (uuid : UInt64) (numHcxs : UInt32) : Option Bytes :=
  (List.range numHcxs.toNat).foldlM
    (fun binaries idx => do
      let loadedBinaries ← loadFile fs (kOutPath ++ [getFileName uuid (Int32.ofNat idx)])
      pure (binaries ++ loadedBinaries))
    []

end Horcrux
