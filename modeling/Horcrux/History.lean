import Horcrux.Asio
import Horcrux.Client

namespace Horcrux
open Utils

def reconstructedPath : Path := kOutPath ++ ["reconstructed.png"]

/-- join.cpp's main. Nothing catches the exception of `value()`, so that the program ends
without a save; what saveFile returns is dropped. -/
def joinMain (fs : FileSystem) (uuid : UInt64) (numHcxs : UInt32) : FileSystem :=
  match joinFiles fs uuid numHcxs with
  | none => fs
  | some binaries => (saveFile fs binaries reconstructedPath).2

/-- One program at work on the files: a server from its start to its end, or the join tool
with the two constants that it was built with. -/
inductive Episode (ι : Type) where
  | serve (mConfig : Config) (incoming : ι → Bytes)
  | join (uuid : UInt64) (numHcxs : UInt32)

namespace Episode
variable {ι : Type} [DecidableEq ι]

/-- A server may end after any handler. It may also be killed in the middle of
saveHorcruxes, when `j` horcruxes are saved and `k` bytes of the next one are written. -/
inductive Run : Episode ι → FileSystem → FileSystem → Prop
  | serve : Agents.Schedule (AsioServer.Step mConfig incoming fun _ _ => True) acts
        (.listening fs) srv →
      Run (.serve mConfig incoming) fs srv.fs
  | killed : Agents.Schedule (AsioServer.Step mConfig incoming fun _ _ => True) acts
        (.listening fs) srv →
      srv.connections i = some x →
      x.conn.pending = some (.sendResponse outcome .saveHorcruxes) →
      saveLoop x.conn.mPreRequestHeader.mUuid (x.conn.mCurrentRequestHorcruxes.take j) 0 srv.fs =
        some fs' →
      x.conn.mCurrentRequestHorcruxes[j]? = some (some hcx) →
      Run (.serve mConfig incoming) fs (saveFile fs' (hcx.mContent.take k)
        (horcruxPath x.conn.mPreRequestHeader.mUuid (.ofNat j))).2
  | join : Run (.join uuid numHcxs) fs (joinMain fs uuid numHcxs)

end Episode
end Horcrux
