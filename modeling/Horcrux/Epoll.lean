import Horcrux.Scheduler

namespace Horcrux.Asio

/-- What the kernel knows of the descriptors: which calls would not block, which events epoll
was asked for, and the descriptors that it has events for, each to be reported once and not
again before something has happened to it. `stale` marks a call that goes on returning at once
although asio has taken it for blocked or exhausted, as it does at the end of a stream. -/
structure Kernel (D : Type) where
  ready : D → OpType → Bool := fun _ _ => false
  interest : D → OpType → Bool := fun _ _ => false
  readyList : List D := []
  stale : D → OpType → Bool := fun _ _ => false

namespace Kernel
variable {D A R : Type} [DecidableEq D]

def setReady (k : Kernel D) (d : D) (j : OpType) (b : Bool) : Kernel D :=
  { k with ready := Function.update k.ready d (Function.update (k.ready d) j b) }

def setStale (k : Kernel D) (d : D) (j : OpType) (b : Bool) : Kernel D :=
  { k with stale := Function.update k.stale d (Function.update (k.stale d) j b) }

/-- The descriptor joins the list if it is not on it. -/
def notify (k : Kernel D) (d : D) : Kernel D :=
  if d ∈ k.readyList then k else { k with readyList := k.readyList ++ [d] }

/-- There is an event to report. -/
def hasEvent (k : Kernel D) (d : D) : Bool :=
  (k.interest d .read && k.ready d .read) || (k.interest d .write && k.ready d .write)

/-- An event is reported when it comes, and an event that is there when it is asked for. -/
def notifyIfReady (k : Kernel D) (d : D) : Kernel D :=
  if k.hasEvent d then k.notify d else k

/-- Bytes, space, a client, the end of a stream or an error has come. -/
def arrive (k : Kernel D) (d : D) (j : OpType) : Kernel D :=
  let k := k.setReady d j true
  if k.interest d j then k.notify d else k

/-- `EPOLL_CTL_ADD` for a new socket, which may have something to read and space to write. -/
def add (k : Kernel D) (d : D) (now : OpType → Bool) : Kernel D :=
  ({ k with
    ready := Function.update k.ready d now
    interest := Function.update k.interest d (Function.update (fun _ => false) .read true)
    stale := Function.update k.stale d fun _ => false } : Kernel D).notifyIfReady d

/-- `EPOLL_CTL_MOD` with `EPOLLOUT` for one more event. -/
def modify (k : Kernel D) (d : D) : Kernel D :=
  ({ k with interest := Function.update k.interest d fun _ => true } : Kernel D).notifyIfReady d

def delete (k : Kernel D) (d : D) : Kernel D :=
  { k with
    interest := Function.update k.interest d fun _ => false
    readyList := k.readyList.erase d }

/-- The kernel at a system call. A call that is not done, or is done and exhausted, would block
if it were made again, but for those with a `lasting` answer. `epoll_wait` reports on some
descriptors at the head of the list, on 128 of them or all if there are not so many, and what
it has reported of a descriptor is all that is there. -/
inductive Serves (lasting : A → Prop) : Call D A R → Kernel D → Kernel D → Prop
  | none : Serves lasting .none k k
  | notDone : (again = true → lasting a) →
      Serves lasting (.perform d j a .notDone) k ((k.setReady d j again).setStale d j again)
  | done : k.ready d j = true →
      Serves lasting (.perform d j a (.done r)) k (k.setReady d j again)
  | exhausted : k.ready d j = true → (again = true → lasting a) →
      Serves lasting (.perform d j a (.doneAndExhausted r)) k
        ((k.setReady d j again).setStale d j again)
  | add : Serves lasting (.add d) k (k.add d now)
  | modify : Serves lasting (.modify d) k (k.modify d)
  | delete : Serves lasting (.delete d) k (k.delete d)
  | wait : 128 ≤ n ∨ k.readyList.length ≤ n →
      (∀ d ∈ k.readyList.take n, ∀ j, k.interest d j = true → k.ready d j = true →
        ∃ e, (d, e) ∈ events ∧ e.concern j = true) →
      Serves lasting (.wait blocking events) k { k with readyList := k.readyList.drop n }
  | interrupted : Serves lasting (.wait blocking []) k k

/-- What happens without a call. Epoll may also report on a descriptor for no reason. -/
inductive Happens : Kernel D → Kernel D → Prop
  | arrive : Happens k (k.arrive d j)
  | spurious : Happens k (k.notify d)

end Kernel

/-- The event loop on its kernel. -/
inductive SystemStep {D O A R σ : Type} [DecidableEq D] (P : Program D O A R σ)
    (lasting : A → Prop) : Option (Call D A R) →
      Scheduler D O R σ × Kernel D → Scheduler D O R σ × Kernel D → Prop
  | call : Scheduler.Step P call m m' → Kernel.Serves lasting call k k' →
      SystemStep P lasting (some call) (m, k) (m', k')
  | happens : Kernel.Happens k k' → SystemStep P lasting none (m, k) (m, k')

end Horcrux.Asio
