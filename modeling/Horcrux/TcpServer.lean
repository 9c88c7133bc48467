import Horcrux.Session
import Mathlib.Logic.Function.Basic

namespace Horcrux

/-- The single-threaded server: the shared filesystem and the connections accepted so
far, one for each client of `ι`. -/
structure TcpServer (ι : Type) where
  fs : FileSystem
  connections : ι → Option Session

namespace TcpServer
variable {ι : Type} [DecidableEq ι]

def listening (fs : FileSystem) : TcpServer ι := ⟨fs, fun _ => none⟩

/-- `handle_accept` without an error: the connection starts and the acceptor waits for
the next client. -/
def handleAccept (srv : TcpServer ι) (i : ι) (mConfig : Config) (stream : Bytes) :
    TcpServer ι :=
  { srv with connections := Function.update srv.connections i (some (.accepted mConfig stream)) }

/-- The io_context accepts client `i` or runs one handler of its connection. `incoming`
is what each client sends, and `io` says which results asio may report. -/
inductive Step (mConfig : Config) (incoming : ι → Bytes) (io : Session → Io → Prop) (i : ι) :
    TcpServer ι → TcpServer ι → Prop
  | accept : srv.connections i = none →
      Step mConfig incoming io i srv (srv.handleAccept i mConfig (incoming i))
  | handler : srv.connections i = some s → io s r → s.complete r srv.fs = .next (s', fs') →
      Step mConfig incoming io i srv ⟨fs', Function.update srv.connections i (some s')⟩

end TcpServer

/-- A read fails only where the peer's bytes have run out, and has then taken them all. -/
def Session.EndOfStream (s : Session) (io : Io) : Prop :=
  ∀ n k, s.conn.requested = some n → io = .error k → s.unread.length < n ∧ k = s.unread.length

end Horcrux
