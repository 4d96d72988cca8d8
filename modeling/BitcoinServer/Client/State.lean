import BitcoinServer.Threads
import BitcoinServer.Command.Dispatch
import BitcoinServer.Work.Search

/-!
Contract: the state of one client of the server.

The parties are the reader (`client_handler`), one thread for each command it
has dispatched (`handler_wrapper` running the command's handler) and the
batches of its WORK handlers. They share `thread_avail_flags`, `thread_pool`,
the work queue, `worker_sem` and `worker_mutex`.

Commands are numbered in the order in which they are read, and what belongs to
one command is a table over these numbers. The number of a command stands for
the `pthread_t` of its thread and for the address of its queue node: both are
made once for each command. `admitted` (the WORK commands pushed on the queue),
`removed` (the owners of the nodes taken off it), `sent` (the SOLN lines of
`work_handler` with their commands), `aborted`, `cleared` and `joined` only
record what has happened; no step reads them.
-/

namespace BitcoinServer.Client

open BitcoinServer.Command BitcoinServer.Work

/-- `CLIENT_THREAD_COUNT`. -/
def clientThreadCount : Nat := 20

/-- `CONCURRENT_WORK_COUNT`. -/
def concurrentWorkCount : Nat := 3

/-- `GLOBAL_WORK_LIMIT`. -/
def globalWorkLimit : Int := 10

/-- How `work_handler_cleanup` came to run: by `pthread_cleanup_pop(1)` after
the reply, or by a cancel, which may have struck while the handler held one of
the permits of `worker_sem`. -/
inductive Via where
  | popped
  | cancelled (holding : Bool)
deriving DecidableEq, Repr

/-- Where `work_handler` is: everything before the first `pthread_testcancel`,
`sem_wait`, the loop that creates the batches, the polls of `solution` and of
`get_tid` with their sleeps, and the reply under `worker_mutex`. -/
inductive WorkPc where
  | start | semWait | create | poll | pollSleep | semPost | turn | turnSleep
  | lock | send | unlock
deriving DecidableEq, Repr

/-- Where `work_handler_cleanup` is. -/
inductive CleanupPc where
  | countDown
  | cancelBtch (i : Nat)
  | joinBtch (i : Nat)
  | wait | waitSleep | rmTid | resetFlag
deriving DecidableEq, Repr

/-- Where `abrt_handler` is. With `curr` on the node of command `node` it reads
`curr->thread_id`, then `thread_pool[..]`, calls `pthread_cancel`, and reads
`curr->next`. -/
inductive AbrtPc where
  | enter
  | atNode (node : Nat)
  | atSlot (node slot : Nat)
  | atCancel (node : Nat) (thread : Option Nat)
  | atNext (node : Nat)
deriving DecidableEq, Repr

/-- Where a command is. `unread` is a command still to come, `claimed` a command
whose thread has not been created yet and `failed` one whose `pthread_create`
failed. `body`, `nap` and `wake` are the handlers that only reply, `nap` being the
`sleep(3)` of `slep_handler`. `wrapper` is the `reset_flag` of `handler_wrapper`.
A thread is `ended`, or `died` by a cancel that no registered cleanup answered. -/
inductive Pc where
  | unread | claimed | failed
  | work (at_ : WorkPc)
  | cleanup (via : Via) (at_ : CleanupPc)
  | abrt (at_ : AbrtPc)
  | body | nap | wake
  | wrapper
  | ended (via : Via)
  | died
deriving DecidableEq, Repr

/-- A node of the work queue, pushed for the WORK command `owner`. -/
structure Node where
  threadId : Nat
  owner : Nat
deriving DecidableEq, Repr

/-- Where the reader is; `c` is the command it is dispatching. It is at `read` or
`get_command`, in `get_avail_thread`, at `if(thread_pool[thread_id])`, in
`pthread_join` on the thread that had the slot before, at the `strcmp` chain, in
`push_tid`, at `pthread_create`, or in `client_handler_cleanup` at slot `i`. -/
inductive Reader where
  | idle
  | claiming (cmd : List UInt8)
  | reuse (c : Nat)
  | joining (c thread : Nat)
  | dispatch (c : Nat)
  | push (c : Nat)
  | create (c : Nat)
  | cleanup (i : Nat)
  | cleanupJoin (i thread : Nat)
  | finished
deriving DecidableEq, Repr

/-- `flags` are the `thread_avail_flags` and `pool` the `thread_pool`, whose zero
after `bzero` is `none`; both are indexed by slots. The tables after `count`, the
number of commands that have got a slot, are indexed by commands: `cancelSent` is
set once `pthread_cancel` has been called on the thread, `aborted` if that was by
`abrt_handler` or at disconnect, `cleared` once the thread has called `reset_flag`
on its slot. -/
structure State where
  reader : Reader
  flags : Nat → Bool
  pool : Nat → Option Nat
  queue : List Node
  workerSem : Nat
  workerMutex : Option Nat
  globalWorkCount : Int
  count : Nat
  cmd : Nat → List UInt8
  func : Nat → WorkerFunc
  slot : Nat → Nat
  pc : Nat → Pc
  search : Nat → Search
  cancelSent : Nat → Bool
  aborted : Nat → Bool
  cleared : Nat → Bool
  joined : Nat → Bool
  admitted : List Nat
  removed : List Nat
  sent : List (Nat × List UInt8)

/-- A client right after `client_handler` has set itself up. -/
def State.initial : State where
  reader := .idle
  flags := fun _ => false
  pool := fun _ => none
  queue := []
  workerSem := concurrentWorkCount
  workerMutex := none
  globalWorkCount := 0
  count := 0
  cmd := fun _ => []
  func := fun _ => .unknHandler
  slot := fun _ => 0
  pc := fun _ => .unread
  search := fun _ => .initial
  cancelSent := fun _ => false
  aborted := fun _ => false
  cleared := fun _ => false
  joined := fun _ => false
  admitted := []
  removed := []
  sent := []

/-! ## Where a thread is -/

/-- A thread was created for the command. -/
def Pc.created (pc : Pc) : Bool :=
  pc ≠ .unread ∧ pc ≠ .claimed ∧ pc ≠ .failed

/-- The thread has ended, so `pthread_join` on it returns. -/
def Pc.finished : Pc → Bool
  | .ended _ => true
  | .died => true
  | _ => false

/-- `work_handler` past `sem_wait` and not yet past `sem_post`. -/
def WorkPc.holdsPermit : WorkPc → Bool
  | .create | .poll | .pollSleep | .semPost => true
  | _ => false

/-- A live WORK handler past `sem_wait` that has not reached `sem_post`. -/
def Pc.holdsPermit : Pc → Bool
  | .work at_ => at_.holdsPermit
  | .cleanup (.cancelled holding) _ => holding
  | _ => false

/-- A live WORK handler that has not yet taken its node off the queue. -/
def Pc.queued : Pc → Bool
  | .work _ => true
  | .cleanup _ at_ => at_ ≠ .resetFlag
  | _ => false

/-- A live WORK handler, before it returns to `handler_wrapper`. -/
def Pc.inWork : Pc → Bool
  | .work _ | .cleanup _ _ => true
  | _ => false

/-! ## Reading the shared state -/

/-- `get_tid`: the slot number at the head of the queue, `none` being `-1`. -/
def getTid (queue : List Node) : Option Nat :=
  queue.head?.map Node.threadId

/-- The node that follows `node` in the queue. -/
def nextNode (queue : List Node) (node : Nat) : Option Nat :=
  ((queue.dropWhile fun entry => entry.owner ≠ node).drop 1).head?.map Node.owner

end BitcoinServer.Client
