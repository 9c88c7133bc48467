import Mathlib.Data.Finset.Erase
import Mathlib.Data.Finset.Insert
import Mathlib.Logic.Function.Basic

namespace Horcrux.Asio

/-- The operation types of the reactor that the server has a use for. An accept is a read. -/
inductive OpType where
  | read
  | write
  deriving DecidableEq

/-- What epoll reports of a descriptor. `error` is `EPOLLERR | EPOLLHUP`. -/
structure Events where
  input : Bool := false
  output : Bool := false
  error : Bool := false
  deriving DecidableEq

namespace Events

/-- `events & (flag[j] | EPOLLERR | EPOLLHUP)` -/
def concern (events : Events) : OpType → Bool
  | .read => events.input || events.error
  | .write => events.output || events.error

def or (e f : Events) : Events := ⟨e.input || f.input, e.output || f.output, e.error || f.error⟩

end Events

/-- The status that `perform` of a reactor operation returns, with what the operation has
got from its system call. -/
inductive Attempt (R : Type) where
  | notDone
  | done (r : R)
  | doneAndExhausted (r : R)

/-- What stands in the queue of the scheduler: the task that runs the reactor, a descriptor
with events, or an operation that is done. -/
inductive Entry (D O R : Type) where
  | task
  | descriptor (d : D)
  | op (o : O) (r : R)

/-- What a running handler asks of asio, by starting operations and by the construction and
destruction of sockets. -/
inductive Request (D O R : Type) where
  | post (o : O) (r : R) (isContinuation : Bool)
  | startOp (d : D) (j : OpType) (o : O) (isContinuation : Bool)
  | registerDescriptor (d : D)
  | deregisterDescriptor (d : D)

/-- A program for the scheduler: what the answer `a` of the system call makes of an operation,
and what its completion does, with its handler, which throws nothing. -/
structure Program (D O A R σ : Type) where
  perform : σ → O → A → Option (Attempt R)
  complete : σ → O → R → Option (σ × List (Request D O R))
  aborted : O → R

/-- `registeredOut` says whether `EPOLLOUT` is among the registered events. -/
structure DescriptorState (O : Type) where
  registeredOut : Bool := false
  opQueue : OpType → List O := fun _ => []
  trySpeculative : OpType → Bool := fun _ => true
  taskResult : Events := {}

/-- Where the thread stands: in code that has yet to make requests, before `run` or in a
handler; in `start_op` behind its try; at the head of the loop of `do_run_one`; in `perform_io`,
with the types still to be seen to and the operations that are done; asleep on the wakeup
event; or back from `run`. -/
inductive Phase (D O R : Type) where
  | requests (inRun : Bool) (requests : List (Request D O R))
  | enqueue (inRun : Bool) (d : D) (j : OpType) (o : O) (requests : List (Request D O R))
  | idle
  | performIo (d : D) (events : Events) (types : List OpType) (ops : List (O × R))
  | asleep
  | returned

/-- The scheduler with its reactor and the one thread that is in it. -/
structure Scheduler (D O R σ : Type) where
  state : σ
  opQueue : List (Entry D O R) := []
  outstandingWork : Int := 0
  stopped : Bool := false
  privateOpQueue : List (O × R) := []
  privateOutstandingWork : Int := 0
  registeredDescriptors : Finset D := ∅
  descriptors : D → DescriptorState O := fun _ => {}
  phase : Phase D O R

/-- The system calls, with what they have come back with. -/
inductive Call (D A R : Type) where
  | none
  | perform (d : D) (j : OpType) (a : A) (attempt : Attempt R)
  | add (d : D)
  | modify (d : D)
  | delete (d : D)
  | wait (blocking : Bool) (events : List (D × Events))

namespace Scheduler
variable {D O A R σ : Type} [DecidableEq D]

/-- The scheduler after `init_task`, in a program that is about to make `requests`. -/
def initial (s : σ) (requests : List (Request D O R)) : Scheduler D O R σ :=
  { state := s, opQueue := [.task], phase := .requests false requests }

def entries (ops : List (O × R)) : List (Entry D O R) := ops.map fun x => .op x.1 x.2

def modifyDescriptor (m : Scheduler D O R σ) (d : D)
    (f : DescriptorState O → DescriptorState O) : Scheduler D O R σ :=
  { m with descriptors := Function.update m.descriptors d (f (m.descriptors d)) }

def setOps (m : Scheduler D O R σ) (d : D) (j : OpType) (ops : List O) : Scheduler D O R σ :=
  m.modifyDescriptor d fun ds => { ds with opQueue := Function.update ds.opQueue j ops }

def setSpeculative (m : Scheduler D O R σ) (d : D) (j : OpType) (b : Bool) :
    Scheduler D O R σ :=
  m.modifyDescriptor d fun ds => { ds with trySpeculative := Function.update ds.trySpeculative j b }

def workStarted (m : Scheduler D O R σ) : Scheduler D O R σ :=
  { m with outstandingWork := m.outstandingWork + 1 }

def workFinished (m : Scheduler D O R σ) : Scheduler D O R σ :=
  { m with
    outstandingWork := m.outstandingWork - 1
    stopped := m.stopped || m.outstandingWork - 1 = 0 }

def compensatingWorkStarted (m : Scheduler D O R σ) : Scheduler D O R σ :=
  { m with privateOutstandingWork := m.privateOutstandingWork + 1 }

/-- A continuation that is posted inside of `run` goes to the queue of the thread. -/
def postImmediateCompletion (m : Scheduler D O R σ) (o : O) (r : R) (isContinuation : Bool)
    (inRun : Bool) : Scheduler D O R σ :=
  if isContinuation && inRun then
    { m with
      privateOutstandingWork := m.privateOutstandingWork + 1
      privateOpQueue := m.privateOpQueue ++ [(o, r)] }
  else { m.workStarted with opQueue := m.opQueue ++ [.op o r] }

def postDeferredCompletions (m : Scheduler D O R σ) (ops : List (O × R)) :
    Scheduler D O R σ :=
  { m with opQueue := m.opQueue ++ entries ops }

/-- The destructor of `work_cleanup`, after an operation has been completed. -/
def workCleanup (m : Scheduler D O R σ) : Scheduler D O R σ :=
  let m :=
    if m.privateOutstandingWork > 1 then
      { m with outstandingWork := m.outstandingWork + (m.privateOutstandingWork - 1) }
    else if m.privateOutstandingWork < 1 then m.workFinished
    else m
  { m with
    privateOutstandingWork := 0
    opQueue := m.opQueue ++ entries m.privateOpQueue
    privateOpQueue := [] }

/-- The end of `start_op`: the operation waits for events of the descriptor. -/
def waitForEvents (m : Scheduler D O R σ) (d : D) (j : OpType) (o : O) : Scheduler D O R σ :=
  (m.setOps d j ((m.descriptors d).opQueue j ++ [o])).workStarted

/-- The registration of a new socket. Its operation queues are those that the descriptor state
was left with. -/
def registerDescriptor (m : Scheduler D O R σ) (d : D) : Scheduler D O R σ :=
  { m with registeredDescriptors := insert d m.registeredDescriptors }.modifyDescriptor d
    fun ds => { ds with registeredOut := false, trySpeculative := fun _ => true }

def deregisterDescriptor (m : Scheduler D O R σ) (d : D) (aborted : O → R) :
    Scheduler D O R σ :=
  let ops := (m.descriptors d).opQueue .read ++ (m.descriptors d).opQueue .write
  ({ m with registeredDescriptors := m.registeredDescriptors.erase d }.modifyDescriptor d
    fun ds => { ds with opQueue := fun _ => [] }).postDeferredCompletions
      (ops.map fun o => (o, aborted o))

/-- `epoll_reactor::run` over the events: `ops` are the descriptors that it has queued. -/
def dispatch (m : Scheduler D O R σ) (ops : List D) :
    List (D × Events) → Scheduler D O R σ × List D
  | [] => (m, ops)
  | (d, events) :: rest =>
    if d ∉ ops then
      (m.modifyDescriptor d fun ds => { ds with taskResult := events }).dispatch (ops ++ [d]) rest
    else
      (m.modifyDescriptor d fun ds => { ds with taskResult := ds.taskResult.or events }).dispatch
        ops rest

/-- The task runs, behind which the destructor of `task_cleanup` puts it into the queue again. -/
def runTask (m : Scheduler D O R σ) (events : List (D × Events)) : Scheduler D O R σ :=
  let (m, ops) := m.dispatch [] events
  { m with opQueue := m.opQueue ++ ops.map .descriptor ++ [.task] }

def enter (m : Scheduler D O R σ) (phase : Phase D O R) : Scheduler D O R σ :=
  { m with phase := phase }

/-- The thread goes on. There is no step for a handler that throws, with which `run` is left. -/
inductive Step (P : Program D O A R σ) :
    Call D A R → Scheduler D O R σ → Scheduler D O R σ → Prop
  | post : m.phase = .requests b (.post o r c :: rest) →
      Step P .none m ((m.postImmediateCompletion o r c b).enter (.requests b rest))
  | registerDescriptor : m.phase = .requests b (.registerDescriptor d :: rest) →
      d ∉ m.registeredDescriptors →
      Step P (.add d) m ((m.registerDescriptor d).enter (.requests b rest))
  | deregisterDescriptor : m.phase = .requests b (.deregisterDescriptor d :: rest) →
      d ∈ m.registeredDescriptors →
      Step P (.delete d) m ((m.deregisterDescriptor d P.aborted).enter (.requests b rest))
  | behind : m.phase = .requests b (.startOp d j o c :: rest) → d ∈ m.registeredDescriptors →
      (m.descriptors d).opQueue j ≠ [] →
      Step P .none m ((m.waitForEvents d j o).enter (.requests b rest))
  | untried : m.phase = .requests b (.startOp d j o c :: rest) → d ∈ m.registeredDescriptors →
      (m.descriptors d).opQueue j = [] → (m.descriptors d).trySpeculative j = false →
      Step P .none m (m.enter (.enqueue b d j o rest))
  | tried : m.phase = .requests b (.startOp d j o c :: rest) → d ∈ m.registeredDescriptors →
      (m.descriptors d).opQueue j = [] → (m.descriptors d).trySpeculative j = true →
      P.perform m.state o a = some .notDone →
      Step P (.perform d j a .notDone) m (m.enter (.enqueue b d j o rest))
  | immediate : m.phase = .requests b (.startOp d j o c :: rest) → d ∈ m.registeredDescriptors →
      (m.descriptors d).opQueue j = [] → (m.descriptors d).trySpeculative j = true →
      P.perform m.state o a = some (.done r) →
      Step P (.perform d j a (.done r)) m
        ((m.postImmediateCompletion o r c b).enter (.requests b rest))
  | immediateExhausted : m.phase = .requests b (.startOp d j o c :: rest) →
      d ∈ m.registeredDescriptors →
      (m.descriptors d).opQueue j = [] → (m.descriptors d).trySpeculative j = true →
      P.perform m.state o a = some (.doneAndExhausted r) →
      Step P (.perform d j a (.doneAndExhausted r)) m
        (((m.setSpeculative d j false).postImmediateCompletion o r c b).enter (.requests b rest))
  | modify : m.phase = .enqueue b d .write o rest → (m.descriptors d).registeredOut = false →
      Step P (.modify d) m
        (((m.modifyDescriptor d fun ds => { ds with registeredOut := true }).waitForEvents
          d .write o).enter (.requests b rest))
  | enqueue : m.phase = .enqueue b d j o rest →
      (j = .write → (m.descriptors d).registeredOut = true) →
      Step P .none m ((m.waitForEvents d j o).enter (.requests b rest))
  | run : m.phase = .requests false [] → m.outstandingWork ≠ 0 → Step P .none m (m.enter .idle)
  | noWork : m.phase = .requests false [] → m.outstandingWork = 0 →
      Step P .none m ({ m with stopped := true }.enter .returned)
  | workCleanup : m.phase = .requests true [] → Step P .none m (m.workCleanup.enter .idle)
  | return : m.phase = .idle → m.stopped = true → Step P .none m (m.enter .returned)
  | sleep : m.phase = .idle → m.stopped = false → m.opQueue = [] →
      Step P .none m (m.enter .asleep)
  | task : m.phase = .idle → m.stopped = false → m.opQueue = .task :: rest →
      Step P (.wait rest.isEmpty events) m ({ m with opQueue := rest }.runTask events)
  | complete : m.phase = .idle → m.stopped = false → m.opQueue = .op o r :: rest →
      P.complete m.state o r = some (s, requests) →
      Step P .none m ({ m with opQueue := rest, state := s }.enter (.requests true requests))
  | descriptor : m.phase = .idle → m.stopped = false → m.opQueue = .descriptor d :: rest →
      Step P .none m ({ m with opQueue := rest }.enter
        (.performIo d (m.descriptors d).taskResult [.write, .read] []))
  | skip : m.phase = .performIo d events (j :: types) ops → events.concern j = false →
      Step P .none m (m.enter (.performIo d events types ops))
  | nothing : m.phase = .performIo d events (j :: types) ops → events.concern j = true →
      (m.descriptors d).opQueue j = [] →
      Step P .none m ((m.setSpeculative d j true).enter (.performIo d events types ops))
  | notDone : m.phase = .performIo d events (j :: types) ops → events.concern j = true →
      (m.descriptors d).opQueue j = o :: waiting → P.perform m.state o a = some .notDone →
      Step P (.perform d j a .notDone) m
        ((m.setSpeculative d j true).enter (.performIo d events types ops))
  | done : m.phase = .performIo d events (j :: types) ops → events.concern j = true →
      (m.descriptors d).opQueue j = o :: waiting → P.perform m.state o a = some (.done r) →
      Step P (.perform d j a (.done r)) m
        (((m.setSpeculative d j true).setOps d j waiting).enter
          (.performIo d events (j :: types) (ops ++ [(o, r)])))
  | exhausted : m.phase = .performIo d events (j :: types) ops → events.concern j = true →
      (m.descriptors d).opQueue j = o :: waiting →
      P.perform m.state o a = some (.doneAndExhausted r) →
      Step P (.perform d j a (.doneAndExhausted r)) m
        (((m.setSpeculative d j false).setOps d j waiting).enter
          (.performIo d events types (ops ++ [(o, r)])))
  | compensate : m.phase = .performIo d events [] [] →
      Step P .none m (m.compensatingWorkStarted.enter (.requests true []))
  | first : m.phase = .performIo d events [] ((o, r) :: ops) →
      P.complete m.state o r = some (s, requests) →
      Step P .none m ({ m.postDeferredCompletions ops with state := s }.enter
        (.requests true requests))

end Scheduler
end Horcrux.Asio
