import Horcrux.Client

namespace Horcrux
open Utils

/-- How main of client.cpp ends before its first socket call: with a status, with an
exception that nothing catches, or in the undefined behaviour of split. -/
inductive Exit where
  | status (code : Int32)
  | terminated (e : Exception)
  | undefined
  deriving DecidableEq

/-- Main of client.cpp up to its first socket call. The command line is parsed outside of
the try block; a failure to resolve or to connect is caught, and the status is 0. `toPath`
is how the system reads a path. -/
def clientMain (fs : FileSystem) (toPath : Bytes → Path) (connects : Bool) (uuid : UInt64)
    (padding : UInt32 → CharArray 4) (argc : Int32) (argv : Nat → CString) :
    Except Exit ClientMain :=
  match parseHorcruxCommand argc argv with
  | .error e => .error (.terminated e)
  | .ok (.error _) => .error (.status (-1))
  | .ok (.ok options) =>
    if !connects then .error (.status 0)
    else
      match getHorcruxes fs (toPath options.mInputPath) options.mHorcruxCount with
      | none => .error .undefined
      | some horcruxes =>
        if horcruxes.isEmpty then .error (.status (-1))
        else .ok (.withHorcruxes uuid padding horcruxes)

namespace ClientMain

/-- One socket call of main with any result that asio may report. The second component
collects the bytes that went out. -/
inductive Attempt : SocketResult → ClientMain × Bytes → ClientMain × Bytes → Prop
  | wrote : c.buffer = some b → Transfers b k →
      Attempt (.wrote k) (c, w) (c.resume (.wrote k), w ++ b.take k)
  | writeError : c.buffer = some b → Attempt .writeError (c, w) (c.resume .writeError, w)
  | read : c.reading = true → bytes ≠ [] → bytes.length ≤ 128 →
      Attempt (.read bytes) (c, w) (c.resume (.read bytes), w)
  | readError : c.reading = true → Attempt .readError (c, w) (c.resume .readError, w)

end ClientMain
end Horcrux
