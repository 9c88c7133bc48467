import Horcrux.Network
import Horcrux.Lib.Shared

namespace Horcrux

/-- A client, its connection and the channels between them: a network without the files. -/
structure Link where
  client : ClientMain
  session : Session
  toServer : Bytes := []
  unsent : Bytes := []
  toClient : Bytes := []
  arrived : Bytes := []

def Link.network (l : Link) (fs : FileSystem) : Network :=
  ⟨l.client, l.session, fs, l.toServer, l.unsent, l.toClient, l.arrived⟩

def Network.link (n : Network) : Link :=
  ⟨n.client, n.session, n.toServer, n.unsent, n.toClient, n.arrived⟩

def Link.connected (client : ClientMain) (mConfig : Config) : Link :=
  { client := client, session := .accepted mConfig [] }

def Link.Step (a : Agent) (x y : Link × FileSystem) : Prop :=
  Network.Step a (x.1.network x.2) (y.1.network y.2)

/-- Any number of clients at one server, whose handlers run one at a time and share the
files. -/
abbrev Cluster (ι : Type) := Agents.Shared ι Link FileSystem

namespace Cluster
variable {ι : Type} [DecidableEq ι]

def connected (clients : ι → ClientMain) (mConfig : Config) (fs : FileSystem) : Cluster ι :=
  ⟨fs, fun i => .connected (clients i) mConfig⟩

/-- One of the agents of client `i` moves. -/
def Step : ι × Agent → Cluster ι → Cluster ι → Prop := Agents.Shared.Step fun _ => Link.Step

end Cluster
end Horcrux
