import BitcoinServer.Client.Step

/-!
Contract: what one step of a client can do.

`ReaderRow` and `HandlerRow` list the steps of the reader and of a handler, one
constructor for each branch of the source that can be taken, with the guard
under which it is taken. Every invariant is a case analysis on these rows, and
no later proof unfolds the step functions.
-/

namespace BitcoinServer.Client

open BitcoinServer.Command BitcoinServer.Work

/-! ## The reader's rows -/

inductive ReaderRow (s : State) : State → Prop where
  | take (cmd : List UInt8) (atRead : s.reader = .idle) :
      ReaderRow s { s with reader := .claiming cmd }
  | disconnect (atRead : s.reader = .idle) : ReaderRow s { s with reader := .cleanup 0 }
  | claim (cmd : List UInt8) (slot : Nat) (atClaim : s.reader = .claiming cmd)
      (avail : getAvailThread s.flags clientThreadCount = some slot) :
      ReaderRow s (s.claim cmd slot)
  | reuseFree (c : Nat) (atReuse : s.reader = .reuse c) (noThread : s.pool (s.slot c) = none) :
      ReaderRow s { s with reader := .dispatch c }
  | reuseCancel (c thread : Nat) (atReuse : s.reader = .reuse c)
      (previous : s.pool (s.slot c) = some thread) :
      ReaderRow s { s.pthreadCancel (some thread) false with reader := .joining c thread }
  | reuseJoin (c thread : Nat) (atJoin : s.reader = .joining c thread)
      (isOver : (s.pc thread).finished = true) :
      ReaderRow s { s.join thread with reader := .dispatch c }
  | accept (c : Nat) (atDispatch : s.reader = .dispatch c) (isWork : s.func c = .workHandler)
      (room : s.globalWorkCount < globalWorkLimit) :
      ReaderRow s { s with globalWorkCount := s.globalWorkCount + 1, reader := .push c }
  | refuse (c : Nat) (atDispatch : s.reader = .dispatch c) (isWork : s.func c = .workHandler)
      (full : ¬ s.globalWorkCount < globalWorkLimit) :
      ReaderRow s { s with
        func := Function.update s.func c .custHandler, reader := .create c }
  | other (c : Nat) (atDispatch : s.reader = .dispatch c) (notWork : s.func c ≠ .workHandler) :
      ReaderRow s { s with reader := .create c }
  | push (c : Nat) (atPush : s.reader = .push c) :
      ReaderRow s { s with
        queue := s.queue ++ [⟨s.slot c, c⟩]
        admitted := s.admitted ++ [c]
        reader := .create c }
  | created (c : Nat) (atCreate : s.reader = .create c) :
      ReaderRow s { s with
        pc := Function.update s.pc c (firstPc (s.func c))
        pool := Function.update s.pool (s.slot c) (some c)
        reader := .idle }
  | notCreated (c : Nat) (atCreate : s.reader = .create c) :
      ReaderRow s { s with pc := Function.update s.pc c .failed, reader := .idle }
  | cleanupNext (i : Nat) (atCleanup : s.reader = .cleanup i)
      (skipped : s.flags i = false ∨ s.pool i = none) :
      ReaderRow s { s with reader := .cleanup (i + 1) }
  | cleanupCancel (i thread : Nat) (atCleanup : s.reader = .cleanup i)
      (inRange : i < clientThreadCount) (busy : s.flags i = true)
      (current : s.pool i = some thread) :
      ReaderRow s { s.pthreadCancel (some thread) true with reader := .cleanupJoin i thread }
  | cleanupJoined (i thread : Nat) (atJoin : s.reader = .cleanupJoin i thread)
      (isOver : (s.pc thread).finished = true) :
      ReaderRow s { s.join thread with reader := .cleanup (i + 1) }
  | cleanupDone (i : Nat) (atCleanup : s.reader = .cleanup i) (last : clientThreadCount ≤ i) :
      ReaderRow s { s with reader := .finished }

theorem readerStep_row {s next : State} {act : ReaderAct} (taken : readerStep s act = some next) :
    ReaderRow s next := by
  cases act with
  | take cmd =>
      rw [readerStep, Option.ite_none_right_eq_some] at taken
      obtain ⟨atRead, ⟨⟩⟩ := taken
      exact .take cmd atRead
  | disconnect =>
      rw [readerStep, Option.ite_none_right_eq_some] at taken
      obtain ⟨atRead, ⟨⟩⟩ := taken
      exact .disconnect atRead
  | create succeeds =>
      cases atReader : s.reader with
      | create c =>
          simp only [readerStep, atReader] at taken
          cases succeeds with
          | false =>
              cases taken
              exact .notCreated c atReader
          | true =>
              cases taken
              exact .created c atReader
      | _ => simp [readerStep, atReader] at taken
  | move =>
      cases atReader : s.reader with
      | claiming cmd =>
          cases avail : getAvailThread s.flags clientThreadCount with
          | none => simp [readerStep, atReader, avail] at taken
          | some slot =>
              simp only [readerStep, atReader, avail] at taken
              cases taken
              exact .claim cmd slot atReader avail
      | reuse c =>
          cases previous : s.pool (s.slot c) with
          | none =>
              simp only [readerStep, atReader, previous] at taken
              cases taken
              exact .reuseFree c atReader previous
          | some thread =>
              simp only [readerStep, atReader, previous] at taken
              cases taken
              exact .reuseCancel c thread atReader previous
      | joining c thread =>
          simp only [readerStep, atReader, Option.ite_none_right_eq_some] at taken
          obtain ⟨isOver, ⟨⟩⟩ := taken
          exact .reuseJoin c thread atReader isOver
      | dispatch c =>
          simp only [readerStep, atReader, Option.some.injEq] at taken
          subst taken
          unfold State.choose
          by_cases isWork : s.func c = .workHandler
          · rw [if_pos isWork]
            by_cases room : s.globalWorkCount < globalWorkLimit
            · rw [if_pos room]
              exact .accept c atReader isWork room
            · rw [if_neg room]
              exact .refuse c atReader isWork room
          · rw [if_neg isWork]
            exact .other c atReader isWork
      | push c =>
          simp only [readerStep, atReader, Option.some.injEq] at taken
          subst taken
          exact .push c atReader
      | cleanup i =>
          simp only [readerStep, atReader] at taken
          by_cases last : clientThreadCount ≤ i
          · rw [if_pos last] at taken
            cases taken
            exact .cleanupDone i atReader last
          · rw [if_neg last] at taken
            by_cases busy : s.flags i = true
            · rw [if_pos busy] at taken
              cases current : s.pool i with
              | none =>
                  simp only [current] at taken
                  cases taken
                  exact .cleanupNext i atReader (.inr current)
              | some thread =>
                  simp only [current] at taken
                  cases taken
                  exact .cleanupCancel i thread atReader (by omega) busy current
            · rw [if_neg busy] at taken
              cases taken
              exact .cleanupNext i atReader (.inl (by simpa using busy))
      | cleanupJoin i thread =>
          simp only [readerStep, atReader, Option.ite_none_right_eq_some] at taken
          obtain ⟨isOver, ⟨⟩⟩ := taken
          exact .cleanupJoined i thread atReader isOver
      | _ => simp [readerStep, atReader] at taken

/-! ## The handlers' rows -/

/-- `HandlerRow job s c before after effect`: the thread of command `c` can go from
`before` to `after` with this effect. -/
inductive HandlerRow (job : Job) (s : State) (c : Nat) : Pc → Pc → Effect → Prop where
  | begin : HandlerRow job s c (.work .start) (.work .semWait) .none
  | acquire (permit : 0 < s.workerSem) :
      HandlerRow job s c (.work .semWait) (.work .create) .takePermit
  | spawn : HandlerRow job s c (.work .create) (.work .create) .none
  | spawned : HandlerRow job s c (.work .create) (.work .poll) .none
  | pollAgain (nothing : (s.search c).solution = 0) :
      HandlerRow job s c (.work .poll) (.work .pollSleep) .none
  | pollFound (found : (s.search c).solution ≠ 0) :
      HandlerRow job s c (.work .poll) (.work .semPost) .none
  | pollWake : HandlerRow job s c (.work .pollSleep) (.work .poll) .none
  | release : HandlerRow job s c (.work .semPost) (.work .turn) .givePermit
  | turnCome (atHead : getTid s.queue = some (s.slot c)) :
      HandlerRow job s c (.work .turn) (.work .lock) .none
  | turnAgain : HandlerRow job s c (.work .turn) (.work .turnSleep) .none
  | turnWake : HandlerRow job s c (.work .turnSleep) (.work .turn) .none
  | lock (free : s.workerMutex = none) : HandlerRow job s c (.work .lock) (.work .send) .lock
  | send :
      HandlerRow job s c (.work .send) (.work .unlock)
        (.send (job.result (s.search c).solution))
  | unlock : HandlerRow job s c (.work .unlock) (.cleanup .popped .countDown) .unlock
  | countDown (via : Via) :
      HandlerRow job s c (.cleanup via .countDown) (.cleanup via (.cancelBtch 0)) .countDown
  | btchesJoined (via : Via) (i : Nat) :
      HandlerRow job s c (.cleanup via (.cancelBtch i)) (.cleanup via .wait) .none
  | cancelBtch (via : Via) (i : Nat) :
      HandlerRow job s c (.cleanup via (.cancelBtch i)) (.cleanup via (.joinBtch i)) .none
  | joinBtch (via : Via) (i : Nat) :
      HandlerRow job s c (.cleanup via (.joinBtch i)) (.cleanup via (.cancelBtch (i + 1))) .none
  | waitCome (via : Via) (atHead : getTid s.queue = some (s.slot c)) :
      HandlerRow job s c (.cleanup via .wait) (.cleanup via .rmTid) .none
  | waitAgain (via : Via) :
      HandlerRow job s c (.cleanup via .wait) (.cleanup via .waitSleep) .none
  | waitWake (via : Via) :
      HandlerRow job s c (.cleanup via .waitSleep) (.cleanup via .wait) .none
  | rmTid (via : Via) :
      HandlerRow job s c (.cleanup via .rmTid) (.cleanup via .resetFlag) .popQueue
  | resetFlag (via : Via) :
      HandlerRow job s c (.cleanup via .resetFlag) (afterCleanup via) .clearFlag
  | walkHead (node : Nat) (head : node ∈ s.queue.map Node.owner) :
      HandlerRow job s c (.abrt .enter) (.abrt (.atNode node)) .none
  | walkEmpty : HandlerRow job s c (.abrt .enter) .wrapper .none
  | walkSlot (node : Node) (queued : node ∈ s.queue) :
      HandlerRow job s c (.abrt (.atNode node.owner))
        (.abrt (.atSlot node.owner node.threadId)) .none
  | walkPool (node slot : Nat) :
      HandlerRow job s c (.abrt (.atSlot node slot)) (.abrt (.atCancel node (s.pool slot))) .none
  | walkCancel (node : Nat) (thread : Option Nat) :
      HandlerRow job s c (.abrt (.atCancel node thread)) (.abrt (.atNext node)) (.cancel thread)
  | walkNext (node next : Nat) (queued : next ∈ s.queue.map Node.owner) :
      HandlerRow job s c (.abrt (.atNext node)) (.abrt (.atNode next)) .none
  | walkEnd (node : Nat) : HandlerRow job s c (.abrt (.atNext node)) .wrapper .none
  | walkFreedNode (node : Nat) (found : Option Nat) (freed : node ∉ s.queue.map Node.owner) :
      HandlerRow job s c (.abrt (.atNode node)) (.abrt (.atCancel node found)) .none
  | walkFreedNext (node next : Nat) (freed : node ∉ s.queue.map Node.owner) :
      HandlerRow job s c (.abrt (.atNext node)) (.abrt (.atNode next)) .none
  | reply : HandlerRow job s c .body .wrapper .none
  | nap (sleeper : s.func c = .slepHandler) : HandlerRow job s c .body .nap .none
  | napOver : HandlerRow job s c .nap .wake .none
  | wake : HandlerRow job s c .wake .wrapper .none
  | wrapper : HandlerRow job s c .wrapper (.ended .popped) .clearFlag
  | cancelled (at_ : WorkPc) (point : cancelPoint (.work at_) =
        some (.cleanup (.cancelled at_.holdsPermit) .countDown))
      (pending : s.cancelSent c = true) :
      HandlerRow job s c (.work at_) (.cleanup (.cancelled at_.holdsPermit) .countDown) .none
  | diedInJoin (i : Nat) (pending : s.cancelSent c = true) :
      HandlerRow job s c (.cleanup .popped (.joinBtch i)) .died .none
  | diedInSleep (pending : s.cancelSent c = true) :
      HandlerRow job s c (.cleanup .popped .waitSleep) .died .none
  | diedNapping (pending : s.cancelSent c = true) : HandlerRow job s c .nap .died .none

section HandlerRows

variable {job : Job} {s : State} {c : Nat} {m : Move}

theorem workHandler_row {at_ : WorkPc} (taken : workHandler job s c at_ = some m) :
    HandlerRow job s c (.work at_) m.pc m.effect := by
  cases at_ with
  | start =>
      cases taken
      exact .begin
  | semWait =>
      rw [workHandler, Option.ite_none_right_eq_some] at taken
      obtain ⟨permit, ⟨⟩⟩ := taken
      exact .acquire permit
  | create =>
      cases spawned : searchStep job (s.search c) .spawn with
      | none =>
          simp only [workHandler, spawned] at taken
          cases taken
          exact .spawned
      | some next =>
          simp only [workHandler, spawned] at taken
          cases taken
          by_cases more : next.btches.length < job.threadCount
          · simpa only [if_pos more] using .spawn
          · simpa only [if_neg more] using .spawned
  | poll =>
      cases taken
      by_cases nothing : (s.search c).solution = 0
      · simpa only [if_pos nothing] using .pollAgain nothing
      · simpa only [if_neg nothing] using .pollFound nothing
  | pollSleep =>
      cases taken
      exact .pollWake
  | semPost =>
      cases taken
      exact .release
  | turn =>
      cases taken
      by_cases atHead : getTid s.queue = some (s.slot c)
      · simpa only [if_pos atHead] using .turnCome atHead
      · simpa only [if_neg atHead] using .turnAgain
  | turnSleep =>
      cases taken
      exact .turnWake
  | lock =>
      rw [workHandler, Option.ite_none_right_eq_some] at taken
      obtain ⟨free, ⟨⟩⟩ := taken
      exact .lock free
  | send =>
      cases taken
      exact .send
  | unlock =>
      cases taken
      exact .unlock

theorem workHandlerCleanup_row {via : Via} {at_ : CleanupPc}
    (taken : workHandlerCleanup job s c via at_ = some m) :
    HandlerRow job s c (.cleanup via at_) m.pc m.effect := by
  cases at_ with
  | countDown =>
      cases taken
      exact .countDown via
  | cancelBtch i =>
      cases cancelled : searchStep job (s.search c) (.cancelBtch i) with
      | none =>
          simp only [workHandlerCleanup, cancelled] at taken
          cases taken
          exact .btchesJoined via i
      | some next =>
          simp only [workHandlerCleanup, cancelled] at taken
          cases taken
          exact .cancelBtch via i
  | joinBtch i =>
      cases created : (s.search c).btches[i]? with
      | none => simp [workHandlerCleanup, created] at taken
      | some btch =>
          simp only [workHandlerCleanup, created, Option.ite_none_right_eq_some] at taken
          obtain ⟨_, ⟨⟩⟩ := taken
          exact .joinBtch via i
  | wait =>
      cases taken
      by_cases atHead : getTid s.queue = some (s.slot c)
      · simpa only [if_pos atHead] using .waitCome via atHead
      · simpa only [if_neg atHead] using .waitAgain via
  | waitSleep =>
      cases taken
      exact .waitWake via
  | rmTid =>
      cases taken
      exact .rmTid via
  | resetFlag =>
      cases taken
      exact .resetFlag via

theorem nextNode_mem {queue : List Node} {node next : Nat}
    (found : nextNode queue node = some next) :
    next ∈ queue.map Node.owner := by
  unfold nextNode at found
  rw [List.head?_drop, Option.map_eq_some_iff] at found
  obtain ⟨entry, read, rfl⟩ := found
  exact List.mem_map_of_mem
    ((List.dropWhile_sublist _).subset (List.mem_of_getElem? read))

theorem abrtHandler_row {at_ : AbrtPc} (taken : abrtHandler s c at_ = some m) :
    HandlerRow job s c (.abrt at_) m.pc m.effect := by
  cases at_ with
  | enter =>
      cases taken
      cases head : s.queue.head? with
      | none => exact .walkEmpty
      | some node =>
          exact .walkHead node.owner (List.mem_map_of_mem (List.mem_of_head? head))
  | atNode node =>
      rw [abrtHandler, Option.map_eq_some_iff] at taken
      obtain ⟨entry, found, ⟨⟩⟩ := taken
      have isNode : entry.owner = node := by simpa using List.find?_some found
      subst isNode
      exact .walkSlot entry (List.mem_of_find?_eq_some found)
  | atSlot node slot =>
      cases taken
      exact .walkPool node slot
  | atCancel node thread =>
      cases taken
      exact .walkCancel node thread
  | atNext node =>
      rw [abrtHandler, Option.ite_none_right_eq_some] at taken
      obtain ⟨_, ⟨⟩⟩ := taken
      cases next : nextNode s.queue node with
      | none => exact .walkEnd node
      | some entry => exact .walkNext node entry (nextNode_mem next)

theorem abrtHandlerStale_row {found : Option Nat} {at_ : AbrtPc}
    (taken : abrtHandlerStale s c found at_ = some m) :
    HandlerRow job s c (.abrt at_) m.pc m.effect := by
  cases at_ with
  | atNode node =>
      rw [abrtHandlerStale, Option.ite_none_left_eq_some] at taken
      obtain ⟨freed, ⟨⟩⟩ := taken
      exact .walkFreedNode node found freed
  | atNext node =>
      rw [abrtHandlerStale, Option.ite_none_left_eq_some] at taken
      obtain ⟨freed, ⟨⟩⟩ := taken
      cases found with
      | none => exact .walkEnd node
      | some next => exact .walkFreedNext node next freed
  | _ => cases taken

theorem cancelPoint_row {pc : Pc} (pending : s.cancelSent c = true)
    (point : cancelPoint (s.pc c) = some pc) : HandlerRow job s c (s.pc c) pc .none := by
  cases before : s.pc c with
  | work at_ =>
      rw [before] at point
      cases at_ <;> cases point <;> exact .cancelled _ rfl pending
  | cleanup via at_ =>
      rw [before] at point
      cases via with
      | cancelled holding => cases point
      | popped =>
          cases at_ with
          | joinBtch i =>
              cases point
              exact .diedInJoin i pending
          | waitSleep =>
              cases point
              exact .diedInSleep pending
          | _ => cases point
  | nap =>
      rw [before] at point
      cases point
      exact .diedNapping pending
  | _ => simp [before, cancelPoint] at point

theorem handlerStep_row {act : HandlerAct} (taken : handlerStep job s c act = some m) :
    HandlerRow job s c (s.pc c) m.pc m.effect := by
  cases act with
  | actCancel =>
      rw [handlerStep, Option.ite_none_right_eq_some, Option.map_eq_some_iff] at taken
      obtain ⟨pending, pc, point, ⟨⟩⟩ := taken
      exact cancelPoint_row pending point
  | stale found =>
      cases before : s.pc c with
      | abrt at_ =>
          simp only [handlerStep, before] at taken
          exact abrtHandlerStale_row taken
      | _ => simp [handlerStep, before] at taken
  | move =>
      rw [handlerStep] at taken
      cases before : s.pc c with
      | work at_ =>
          simp only [handlerMove, before] at taken
          exact workHandler_row taken
      | cleanup via at_ =>
          simp only [handlerMove, before] at taken
          exact workHandlerCleanup_row taken
      | abrt at_ =>
          simp only [handlerMove, before] at taken
          exact abrtHandler_row taken
      | body =>
          simp only [handlerMove, before, Option.some.injEq] at taken
          subst taken
          by_cases sleeper : s.func c = .slepHandler
          · simpa only [if_pos sleeper] using .nap sleeper
          · simpa only [if_neg sleeper] using .reply
      | nap =>
          simp only [handlerMove, before, Option.some.injEq] at taken
          subst taken
          exact .napOver
      | wake =>
          simp only [handlerMove, before, Option.some.injEq] at taken
          subst taken
          exact .wake
      | wrapper =>
          simp only [handlerMove, before, Option.some.injEq] at taken
          subst taken
          exact .wrapper
      | _ => simp [handlerMove, before] at taken

end HandlerRows

end BitcoinServer.Client
