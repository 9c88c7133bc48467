import Horcrux.Client
import Horcrux.Lib.Agents

namespace Horcrux

/-- The client's messages so far: each one that it has read a response to, and the one
that it waits for a response to. -/
def ClientMain.sent (c : ClientMain) : Nat :=
  c.verdicts.length + if c.reading then 1 else 0

/-- The client and a server that answers it with a given sequence of responses. `issued`
of them are sent, and `unread` is what the client has not read of these. -/
structure Conversation where
  client : ClientMain
  issued : Nat := 0
  unread : Bytes := []

/-- What happens in a conversation. A call of `read_some` comes with the number of bytes
that it returns. -/
inductive Act where
  | write (length : Nat)
  | writeError
  | respond
  | read (length : Nat)
  | readError
  deriving DecidableEq

namespace Conversation

/-- The server issues a response only to a message that the client has sent, and
`read_some` returns any non-empty chunk of what is there, of at most 128 bytes. -/
inductive Step (responses : List Bool) : Act → Conversation → Conversation → Prop
  | write : n.client.buffer = some b → ClientMain.Transfers b k →
      Step responses (.write k) n { n with client := n.client.resume (.wrote k) }
  | writeError : n.client.buffer = some b →
      Step responses .writeError n { n with client := n.client.resume .writeError }
  | respond : n.issued < n.client.sent → responses[n.issued]? = some outcome →
      Step responses .respond n
        { n with issued := n.issued + 1, unread := n.unread ++ response outcome }
  | read : n.client.reading = true → 1 ≤ k → k ≤ 128 → k ≤ n.unread.length →
      Step responses (.read k) n
        { n with client := n.client.resume (.read (n.unread.take k)), unread := n.unread.drop k }
  | readError : n.client.reading = true →
      Step responses .readError n { n with client := n.client.resume .readError }

/-- The lengths that the calls of `read_some` have returned, in order. -/
def reads : List Act → List Nat
  | [] => []
  | .read k :: acts => k :: reads acts
  | _ :: acts => reads acts

end Conversation
end Horcrux
