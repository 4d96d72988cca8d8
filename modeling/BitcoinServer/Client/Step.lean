import BitcoinServer.Client.State
import Mathlib.Logic.Function.Basic

/-!
Contract: the step function of one client.

A label names the thread that moves. Every access to shared memory is a step of
its own: a mutex-protected flag or queue operation, a semaphore operation, a
`pthread_*` call, the reads of `abrt_handler`.

Cancellation is the deferred one of POSIX. `HandlerAct.actCancel` is a thread
acting on a pending cancel at a cancellation point: `pthread_testcancel`,
`sem_wait`, `sleep`, and `pthread_join` in a cleanup that is not itself run by a
cancel. A cancellation point may also return normally although a cancel is
pending, since the cancel may have come while the call was already returning.

`jobOf c cmd` is what `work_handler` makes of its command string; `others` is any
update of `global_work_count` by the other clients of the server.
`check_avail_thread` never returns `0`, so the reader never sleeps on it. A batch
loop of the cleanup skips the zero entries of `btches`, so it runs over the
batches that were created.
-/

namespace BitcoinServer.Client

open BitcoinServer.Command BitcoinServer.Work CText

/-- `take` reads the next command, `disconnect` is the end of the input,
`create` the result of `pthread_create`. -/
inductive ReaderAct where
  | take (cmd : List UInt8)
  | disconnect
  | move
  | create (succeeds : Bool)
deriving DecidableEq, Repr

/-- A handler goes on, acts on a pending cancel, or reads a freed queue node. -/
inductive HandlerAct where
  | move
  | actCancel
  | stale (found : Option Nat)
deriving DecidableEq, Repr

inductive Label where
  | reader (act : ReaderAct)
  | handler (c : Nat) (act : HandlerAct)
  | btch (c i : Nat) (act : BtchAct)
  | others (globalWorkCount : Int)
deriving DecidableEq, Repr

/-! ## The reader -/

/-- Where the thread of a command starts. -/
def firstPc : WorkerFunc → Pc
  | .workHandler => .work .start
  | .abrtHandler => .abrt .enter
  | _ => .body

/-- `pthread_cancel`. On an id that is null or no thread's it is taken to have no
effect (the recommended `ESRCH`). -/
def State.pthreadCancel (s : State) (thread : Option Nat) (abort : Bool) : State :=
  match thread with
  | none => s
  | some t =>
      if (s.pc t).created then
        { s with
          cancelSent := Function.update s.cancelSent t true
          aborted := Function.update s.aborted t (s.aborted t || abort) }
      else s

/-- `pthread_join` on a thread that has ended. -/
def State.join (s : State) (thread : Nat) : State :=
  { s with joined := Function.update s.joined thread true }

/-- Command number `count` gets a slot from `get_avail_thread`. -/
def State.claim (s : State) (cmd : List UInt8) (slot : Nat) : State :=
  { s with
    flags := Function.update s.flags slot true
    reader := .reuse s.count
    count := s.count + 1
    cmd := Function.update s.cmd s.count cmd
    func := Function.update s.func s.count (dispatch cmd)
    slot := Function.update s.slot s.count slot
    pc := Function.update s.pc s.count .claimed }

/-- The `strcmp` chain for command `c`, with the test on `global_work_count`. -/
def State.choose (s : State) (c : Nat) : State :=
  if s.func c = .workHandler then
    if s.globalWorkCount < globalWorkLimit then
      { s with globalWorkCount := s.globalWorkCount + 1, reader := .push c }
    else
      { s with func := Function.update s.func c .custHandler, reader := .create c }
  else { s with reader := .create c }

def readerStep (s : State) : ReaderAct → Option State
  | .take cmd => if s.reader = .idle then some { s with reader := .claiming cmd } else none
  | .disconnect => if s.reader = .idle then some { s with reader := .cleanup 0 } else none
  | .create succeeds =>
      match s.reader with
      | .create c =>
          if succeeds then
            some { s with
              pc := Function.update s.pc c (firstPc (s.func c))
              pool := Function.update s.pool (s.slot c) (some c)
              reader := .idle }
          else
            some { s with pc := Function.update s.pc c .failed, reader := .idle }
      | _ => none
  | .move =>
      match s.reader with
      | .claiming cmd =>
          match getAvailThread s.flags clientThreadCount with
          | none => none
          | some slot => some (s.claim cmd slot)
      | .reuse c =>
          match s.pool (s.slot c) with
          | none => some { s with reader := .dispatch c }
          | some thread =>
              some { s.pthreadCancel (some thread) false with reader := .joining c thread }
      | .joining c thread =>
          if (s.pc thread).finished then some { s.join thread with reader := .dispatch c }
          else none
      | .dispatch c => some (s.choose c)
      | .push c =>
          some { s with
            queue := s.queue ++ [⟨s.slot c, c⟩]
            admitted := s.admitted ++ [c]
            reader := .create c }
      | .cleanup i =>
          if clientThreadCount ≤ i then some { s with reader := .finished }
          else if s.flags i then
            match s.pool i with
            | none => some { s with reader := .cleanup (i + 1) }
            | some thread =>
                some { s.pthreadCancel (some thread) true with reader := .cleanupJoin i thread }
          else some { s with reader := .cleanup (i + 1) }
      | .cleanupJoin i thread =>
          if (s.pc thread).finished then some { s.join thread with reader := .cleanup (i + 1) }
          else none
      | .idle | .create _ | .finished => none

/-! ## The handlers -/

/-- What a step of a handler does to the shared state. -/
inductive Effect where
  | none
  | takePermit
  | givePermit
  | lock
  | unlock
  | send (line : List UInt8)
  | countDown
  | popQueue
  | clearFlag
  | cancel (thread : Option Nat)
deriving DecidableEq, Repr

/-- A step of a handler: where it is afterwards, its batches, its effect. -/
structure Move where
  pc : Pc
  search : Search
  effect : Effect
deriving DecidableEq, Repr

/-- `work_handler` of command `c`. -/
def workHandler (job : Job) (s : State) (c : Nat) : WorkPc → Option Move
  | .start => some ⟨.work .semWait, s.search c, .none⟩
  | .semWait =>
      if 0 < s.workerSem then some ⟨.work .create, s.search c, .takePermit⟩ else none
  | .create =>
      match searchStep job (s.search c) .spawn with
      | none => some ⟨.work .poll, s.search c, .none⟩
      | some spawned =>
          some ⟨.work (if spawned.btches.length < job.threadCount then .create else .poll),
            spawned, .none⟩
  | .poll =>
      some ⟨.work (if (s.search c).solution = 0 then .pollSleep else .semPost), s.search c, .none⟩
  | .pollSleep => some ⟨.work .poll, s.search c, .none⟩
  | .semPost => some ⟨.work .turn, s.search c, .givePermit⟩
  | .turn =>
      some ⟨.work (if getTid s.queue = some (s.slot c) then .lock else .turnSleep),
        s.search c, .none⟩
  | .turnSleep => some ⟨.work .turn, s.search c, .none⟩
  | .lock => if s.workerMutex = none then some ⟨.work .send, s.search c, .lock⟩ else none
  | .send => some ⟨.work .unlock, s.search c, .send (job.result (s.search c).solution)⟩
  | .unlock => some ⟨.cleanup .popped .countDown, s.search c, .unlock⟩

/-- Where a WORK handler goes after its cleanup. -/
def afterCleanup : Via → Pc
  | .popped => .wrapper
  | .cancelled holding => .ended (.cancelled holding)

/-- `work_handler_cleanup` of command `c`. -/
def workHandlerCleanup (job : Job) (s : State) (c : Nat) (via : Via) : CleanupPc → Option Move
  | .countDown =>
      some ⟨.cleanup via (.cancelBtch 0), { s.search c with cancelled := true }, .countDown⟩
  | .cancelBtch i =>
      match searchStep job (s.search c) (.cancelBtch i) with
      | none => some ⟨.cleanup via .wait, s.search c, .none⟩
      | some cancelled => some ⟨.cleanup via (.joinBtch i), cancelled, .none⟩
  | .joinBtch i =>
      match (s.search c).btches[i]? with
      | none => none
      | some btch =>
          if btch.Ended then some ⟨.cleanup via (.cancelBtch (i + 1)), s.search c, .none⟩
          else none
  | .wait =>
      some ⟨.cleanup via (if getTid s.queue = some (s.slot c) then .rmTid else .waitSleep),
        s.search c, .none⟩
  | .waitSleep => some ⟨.cleanup via .wait, s.search c, .none⟩
  | .rmTid => some ⟨.cleanup via .resetFlag, s.search c, .popQueue⟩
  | .resetFlag => some ⟨afterCleanup via, s.search c, .clearFlag⟩

/-- `abrt_handler` of command `c`, where it reads nodes that are still queued. -/
def abrtHandler (s : State) (c : Nat) : AbrtPc → Option Move
  | .enter =>
      some ⟨(s.queue.head?.map Node.owner).elim .wrapper fun node => .abrt (.atNode node),
        s.search c, .none⟩
  | .atNode node =>
      (s.queue.find? fun entry => entry.owner = node).map fun entry =>
        ⟨.abrt (.atSlot node entry.threadId), s.search c, .none⟩
  | .atSlot node slot => some ⟨.abrt (.atCancel node (s.pool slot)), s.search c, .none⟩
  | .atCancel node thread => some ⟨.abrt (.atNext node), s.search c, .cancel thread⟩
  | .atNext node =>
      if node ∈ s.queue.map Node.owner then
        some ⟨(nextNode s.queue node).elim .wrapper fun next => .abrt (.atNode next),
          s.search c, .none⟩
      else none

/-- `abrt_handler` where it reads a node that has been freed: it finds any
`pthread_t` behind it, or any next pointer. -/
def abrtHandlerStale (s : State) (c : Nat) (found : Option Nat) : AbrtPc → Option Move
  | .atNode node =>
      if node ∈ s.queue.map Node.owner then none
      else some ⟨.abrt (.atCancel node found), s.search c, .none⟩
  | .atNext node =>
      if node ∈ s.queue.map Node.owner then none
      else some ⟨found.elim .wrapper fun next => .abrt (.atNode next), s.search c, .none⟩
  | _ => none

/-- The next step of the thread of command `c`. -/
def handlerMove (job : Job) (s : State) (c : Nat) : Option Move :=
  match s.pc c with
  | .work at_ => workHandler job s c at_
  | .cleanup via at_ => workHandlerCleanup job s c via at_
  | .abrt at_ => abrtHandler s c at_
  | .body => some ⟨if s.func c = .slepHandler then .nap else .wrapper, s.search c, .none⟩
  | .nap => some ⟨.wake, s.search c, .none⟩
  | .wake => some ⟨.wrapper, s.search c, .none⟩
  | .wrapper => some ⟨.ended .popped, s.search c, .clearFlag⟩
  | .unread | .claimed | .failed | .ended _ | .died => none

/-- Where a thread goes that acts on a pending cancel. In `work_handler` the
registered cleanup runs; in a popped cleanup and in `slep_handler` none is
registered and the thread dies; a cleanup run by a cancel ignores further ones. -/
def cancelPoint : Pc → Option Pc
  | .work .start | .work .semWait | .work .turnSleep =>
      some (.cleanup (.cancelled false) .countDown)
  | .work .create | .work .pollSleep => some (.cleanup (.cancelled true) .countDown)
  | .cleanup .popped (.joinBtch _) | .cleanup .popped .waitSleep | .nap => some .died
  | _ => none

def handlerStep (job : Job) (s : State) (c : Nat) : HandlerAct → Option Move
  | .move => handlerMove job s c
  | .actCancel =>
      if s.cancelSent c then (cancelPoint (s.pc c)).map fun pc => ⟨pc, s.search c, .none⟩
      else none
  | .stale found =>
      match s.pc c with
      | .abrt at_ => abrtHandlerStale s c found at_
      | _ => none

def State.apply (s : State) (c : Nat) : Effect → State
  | .none => s
  | .takePermit => { s with workerSem := s.workerSem - 1 }
  | .givePermit => { s with workerSem := s.workerSem + 1 }
  | .lock => { s with workerMutex := some c }
  | .unlock => { s with workerMutex := none }
  | .send line => { s with sent := s.sent ++ [(c, line)] }
  | .countDown => { s with globalWorkCount := s.globalWorkCount - 1 }
  | .popQueue =>
      { s with
        queue := s.queue.drop 1
        removed := s.removed ++ (s.queue.take 1).map Node.owner }
  | .clearFlag =>
      { s with
        flags := Function.update s.flags (s.slot c) false
        cleared := Function.update s.cleared c true }
  | .cancel thread => s.pthreadCancel thread true

def State.perform (s : State) (c : Nat) (m : Move) : State :=
  State.apply { s with
    pc := Function.update s.pc c m.pc
    search := Function.update s.search c m.search } c m.effect

/-! ## The client -/

def step (jobOf : Nat → List UInt8 → Job) (s : State) : Label → Option State
  | .reader act => readerStep s act
  | .handler c act => (handlerStep (jobOf c (s.cmd c)) s c act).map (s.perform c)
  | .btch c i act =>
      (searchStep (jobOf c (s.cmd c)) (s.search c) (.btch i act)).map fun search =>
        { s with search := Function.update s.search c search }
  | .others globalWorkCount => some { s with globalWorkCount := globalWorkCount }

/-! ## Spelling out a run -/

/-- The reader takes `cmd`, makes `n` moves and creates the thread. -/
def serve (cmd : List UInt8) (n : Nat) : List Label :=
  .reader (.take cmd) :: (List.replicate n (.reader .move) ++ [.reader (.create true)])

/-- The handler of command `c` makes `n` moves. -/
def moves (c n : Nat) : List Label :=
  List.replicate n (.handler c .move)

def pingCmd : List UInt8 := ascii ['P', 'I', 'N', 'G']

def abrtCmd : List UInt8 := ascii ['A', 'B', 'R', 'T']

/-- A WORK command with difficulty `difficulty`, start nonce 1 and one batch. -/
def workCmd (difficulty : List Char) : List UInt8 :=
  ascii (['W', 'O', 'R', 'K', ' '] ++ difficulty ++ [' '] ++ List.replicate 64 '0' ++ [' '] ++
    List.replicate 15 '0' ++ ['1', ' ', '0', '1'])

/-- A WORK command that no nonce solves, its target being 0. -/
def hardWork : List UInt8 := workCmd (List.replicate 8 '0')

/-- What `work_handler` makes of `hardWork`. -/
def hardJob (_ : Nat) (_ : List UInt8) : Job := ⟨1, 1, fun _ => false, fun _ => []⟩

/-- A WORK command that practically every nonce solves. -/
def easyWork : List UInt8 := workCmd ('2' :: '0' :: List.replicate 6 'f')

/-- What `work_handler` makes of `easyWork`, its line left out. -/
def easyJob (_ : Nat) (_ : List UInt8) : Job := ⟨1, 1, fun _ => true, fun _ => []⟩

end BitcoinServer.Client
