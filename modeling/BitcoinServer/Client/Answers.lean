import BitcoinServer.Client.Replies
import BitcoinServer.Work.Answer

/-!
Contract: the lines that the WORK handlers of a client send.

The batches of every command make a run of `searchStep` for that command's job, so
what holds of every reachable search holds of every search of the client. A handler
past its poll has a nonzero solution, and the line that it sends is the one for a
solution that a batch has found valid.
-/

namespace BitcoinServer.Client

open BitcoinServer.Command BitcoinServer.Solution BitcoinServer.Work CText Transition

/-- `work_handler` past the poll that read a nonzero `solution`, up to its `send_message`. -/
def Pc.polled : Pc → Bool
  | .work .semPost | .work .turn | .work .turnSleep | .work .lock | .work .send => true
  | _ => false

structure AnswerInv (jobOf : Nat → List UInt8 → Job) (s : State) : Prop where
  search : ∀ c, Reachable (searchStep (jobOf c (s.cmd c))) .initial (s.search c)
  unread : ∀ c, s.count ≤ c → s.search c = .initial
  polled : ∀ c, (s.pc c).polled = true → (s.search c).solution ≠ 0
  sent : ∀ c line, (c, line) ∈ s.sent → c < s.count ∧
    ∃ solution, Found (jobOf c (s.cmd c)) solution ∧
      line = (jobOf c (s.cmd c)).result solution

/-! ## Searches -/

section Searches

variable {job : Job} {s : State} {c : Nat} {m : Move} {search next : Search}

/-- No step of a search, or one. -/
def SearchMove (job : Job) (search next : Search) : Prop :=
  next = search ∨ ∃ label, searchStep job search label = some next

theorem workHandler_searchMove {at_ : WorkPc} (taken : workHandler job s c at_ = some m) :
    SearchMove job (s.search c) m.search := by
  cases at_ with
  | create =>
      cases spawned : searchStep job (s.search c) .spawn with
      | none =>
          simp only [workHandler, spawned] at taken
          cases taken
          exact .inl rfl
      | some next =>
          simp only [workHandler, spawned] at taken
          cases taken
          exact .inr ⟨.spawn, spawned⟩
  | semWait | lock =>
      rw [workHandler, Option.ite_none_right_eq_some] at taken
      obtain ⟨_, ⟨⟩⟩ := taken
      exact .inl rfl
  | _ =>
      cases taken
      exact .inl rfl

theorem workHandlerCleanup_searchMove {via : Via} {at_ : CleanupPc}
    (taken : workHandlerCleanup job s c via at_ = some m) :
    SearchMove job (s.search c) m.search := by
  cases at_ with
  | countDown =>
      cases taken
      exact .inr ⟨.setCancelled, rfl⟩
  | cancelBtch i =>
      cases cancelled : searchStep job (s.search c) (.cancelBtch i) with
      | none =>
          simp only [workHandlerCleanup, cancelled] at taken
          cases taken
          exact .inl rfl
      | some next =>
          simp only [workHandlerCleanup, cancelled] at taken
          cases taken
          exact .inr ⟨.cancelBtch i, cancelled⟩
  | joinBtch i =>
      simp only [workHandlerCleanup] at taken
      split at taken
      · contradiction
      · rw [Option.ite_none_right_eq_some] at taken
        obtain ⟨_, ⟨⟩⟩ := taken
        exact .inl rfl
  | _ =>
      cases taken
      exact .inl rfl

theorem abrtHandler_searchMove {at_ : AbrtPc} (taken : abrtHandler s c at_ = some m) :
    SearchMove job (s.search c) m.search := by
  cases at_ with
  | atNode node =>
      rw [abrtHandler, Option.map_eq_some_iff] at taken
      obtain ⟨_, _, ⟨⟩⟩ := taken
      exact .inl rfl
  | atNext node =>
      rw [abrtHandler, Option.ite_none_right_eq_some] at taken
      obtain ⟨_, ⟨⟩⟩ := taken
      exact .inl rfl
  | _ =>
      cases taken
      exact .inl rfl

theorem abrtHandlerStale_searchMove {found : Option Nat} {at_ : AbrtPc}
    (taken : abrtHandlerStale s c found at_ = some m) : SearchMove job (s.search c) m.search := by
  cases at_ with
  | atNode node | atNext node =>
      rw [abrtHandlerStale, Option.ite_none_left_eq_some] at taken
      obtain ⟨_, ⟨⟩⟩ := taken
      exact .inl rfl
  | _ => cases taken

theorem handlerStep_searchMove {act : HandlerAct} (taken : handlerStep job s c act = some m) :
    SearchMove job (s.search c) m.search := by
  cases act with
  | actCancel =>
      rw [handlerStep, Option.ite_none_right_eq_some, Option.map_eq_some_iff] at taken
      obtain ⟨_, _, _, ⟨⟩⟩ := taken
      exact .inl rfl
  | stale found =>
      cases before : s.pc c with
      | abrt at_ =>
          simp only [handlerStep, before] at taken
          exact abrtHandlerStale_searchMove taken
      | _ => simp [handlerStep, before] at taken
  | move =>
      rw [handlerStep] at taken
      cases before : s.pc c with
      | work at_ =>
          simp only [handlerMove, before] at taken
          exact workHandler_searchMove taken
      | cleanup via at_ =>
          simp only [handlerMove, before] at taken
          exact workHandlerCleanup_searchMove taken
      | abrt at_ =>
          simp only [handlerMove, before] at taken
          exact abrtHandler_searchMove taken
      | body | nap | wake | wrapper =>
          simp only [handlerMove, before, Option.some.injEq] at taken
          cases taken
          exact .inl rfl
      | _ => simp [handlerMove, before] at taken

theorem SearchMove.reachable (move : SearchMove job search next)
    (reached : Reachable (searchStep job) .initial search) :
    Reachable (searchStep job) .initial next := by
  rcases move with same | ⟨label, taken⟩
  · rw [same]
    exact reached
  · exact reached.advance label taken

theorem SearchMove.solution (move : SearchMove job search next)
    (nonzero : search.solution ≠ 0) : next.solution ≠ 0 := by
  rcases move with same | ⟨label, taken⟩
  · rw [same]
    exact nonzero
  · rw [searchStep_keeps_solution taken nonzero]
    exact nonzero

end Searches

/-! ## Steps -/

section Steps

variable {jobOf : Nat → List UInt8 → Job} {s next : State} {label : Label} {c : Nat}

theorem answerInv_initial : AnswerInv jobOf State.initial where
  search _ := Transition.ReachableIf.here
  unread _ _ := rfl
  polled := nofun
  sent := nofun

theorem ReaderRow.search_sent (row : ReaderRow s next) :
    next.search = s.search ∧ next.sent = s.sent := by
  cases row <;> simp [State.join, State.claim]

theorem ReaderRow.count_le (row : ReaderRow s next) : s.count ≤ next.count := by
  cases row <;> simp [State.join, State.claim]

/-- The reader does not change the string of a command that has been read. -/
theorem ReaderRow.cmd (row : ReaderRow s next) {t : Nat} (inCount : t < s.count) :
    next.cmd t = s.cmd t := by
  cases row with
  | claim cmd slot atClaim avail => exact Function.update_of_ne (Nat.ne_of_lt inCount) ..
  | _ => simp [State.join]

theorem firstPc_polled (func : WorkerFunc) : (firstPc func).polled = false := by
  cases func <;> rfl

/-- A handler is past its poll after a poll that reads a nonzero solution. -/
theorem HandlerRow.polled {job : Job} {before after : Pc} {effect : Effect}
    (row : HandlerRow job s c before after effect) (polled : after.polled = true) :
    before.polled = true ∨ (s.search c).solution ≠ 0 := by
  cases row with
  | pollFound found => exact .inr found
  | resetFlag via => cases via <;> cases polled
  | _ => first | exact .inl rfl | cases polled

theorem AnswerInv.reader (inv : AnswerInv jobOf s) (row : ReaderRow s next) :
    AnswerInv jobOf next := by
  obtain ⟨search, sent⟩ := row.search_sent
  have counts := row.count_le
  constructor
  · intro t
    rw [search]
    by_cases inCount : t < s.count
    · rw [row.cmd inCount]
      exact inv.search t
    · rw [inv.unread t (Nat.not_lt.mp inCount)]
      exact Transition.ReachableIf.here
  · intro t beyond
    rw [search]
    exact inv.unread t (Nat.le_trans counts beyond)
  · intro t polled
    rw [search]
    rcases row.pc t with same | claimed | failed | first
    · rw [same] at polled
      exact inv.polled t polled
    · rw [claimed] at polled
      cases polled
    · rw [failed] at polled
      cases polled
    · rw [first, firstPc_polled] at polled
      cases polled
  · intro t line member
    rw [sent] at member
    obtain ⟨inCount, found⟩ := inv.sent t line member
    rw [row.cmd inCount]
    exact ⟨Nat.lt_of_lt_of_le inCount counts, found⟩

/-- A step that moves the search of one command and sends nothing new but valid lines. -/
private theorem AnswerInv.searched {search : Search} (inv : AnswerInv jobOf s)
    (inCount : c < s.count) (move : SearchMove (jobOf c (s.cmd c)) (s.search c) search)
    (searches : next.search = Function.update s.search c search) (sameCmd : next.cmd = s.cmd)
    (sameCount : next.count = s.count)
    (polled : ∀ t, (next.pc t).polled = true → (s.search t).solution ≠ 0)
    (sent : ∀ t line, (t, line) ∈ next.sent → t < s.count ∧
      ∃ solution, Found (jobOf t (s.cmd t)) solution ∧
        line = (jobOf t (s.cmd t)).result solution) : AnswerInv jobOf next := by
  have others : ∀ t, t ≠ c → next.search t = s.search t := by
    intro t other
    rw [searches, Function.update_of_ne other]
  have own : next.search c = search := by rw [searches, Function.update_self]
  constructor
  · intro t
    rw [sameCmd]
    by_cases self : t = c
    · rw [self, own]
      exact move.reachable (inv.search c)
    · rw [others t self]
      exact inv.search t
  · intro t beyond
    rw [sameCount] at beyond
    rw [others t (by omega)]
    exact inv.unread t beyond
  · intro t past
    have nonzero := polled t past
    by_cases self : t = c
    · rw [self] at nonzero ⊢
      rw [own]
      exact move.solution nonzero
    · rw [others t self]
      exact nonzero
  · rw [sameCmd, sameCount]
    exact sent

theorem AnswerInv.handler {act : HandlerAct} {m : Move} (inv : AnswerInv jobOf s)
    (readerInv : ReaderInv s) (isInt : ∀ t cmd, (jobOf t cmd).threadCount < 2 ^ 31)
    (moved : handlerStep (jobOf c (s.cmd c)) s c act = some m) :
    AnswerInv jobOf (s.perform c m) := by
  have row := handlerStep_row moved
  have inCount : c < s.count := by
    apply readerInv.lt_count
    intro unread
    have created := row.live.1
    rw [unread] at created
    cases created
  apply inv.searched inCount (handlerStep_searchMove moved) (perform_search s c m)
    (perform_cmd s c m) (perform_count s c m)
  · intro t polled
    rw [perform_pc] at polled
    by_cases self : t = c
    · rw [self, Function.update_self] at polled
      rw [self]
      exact (row.polled polled).elim (inv.polled c) id
    · rw [Function.update_of_ne self] at polled
      exact inv.polled t polled
  · intro t line member
    rw [perform_sent] at member
    split at member
    next sentLine sends =>
      rcases List.mem_append.mp member with old | new
      · exact inv.sent t line old
      · obtain ⟨rfl, rfl⟩ := Prod.mk.inj (List.mem_singleton.mp new)
        rw [sends] at row
        obtain ⟨atSend, _, isResult⟩ := row.sends
        have nonzero := inv.polled t (by rw [atSend]; rfl)
        have searched := searchInv_of_reachable (isInt t (s.cmd t)) (inv.search t)
        exact ⟨inCount, _, searched.found nonzero, isResult⟩
    next => exact inv.sent t line member

theorem AnswerInv.btch {i : Nat} {act : BtchAct} {search : Search} (inv : AnswerInv jobOf s)
    (moved : searchStep (jobOf c (s.cmd c)) (s.search c) (.btch i act) = some search) :
    AnswerInv jobOf { s with search := Function.update s.search c search } := by
  have inCount : c < s.count := by
    by_contra beyond
    rw [inv.unread c (Nat.not_lt.mp beyond)] at moved
    cases moved
  exact inv.searched inCount (.inr ⟨_, moved⟩) rfl rfl rfl inv.polled inv.sent

theorem AnswerInv.step (inv : AnswerInv jobOf s) (readerInv : ReaderInv s)
    (isInt : ∀ t cmd, (jobOf t cmd).threadCount < 2 ^ 31)
    (taken : Client.step jobOf s label = some next) : AnswerInv jobOf next := by
  cases label with
  | reader act => exact inv.reader (readerStep_row taken)
  | handler t act =>
      rw [Client.step, Option.map_eq_some_iff] at taken
      obtain ⟨m, moved, rfl⟩ := taken
      exact inv.handler readerInv isInt moved
  | btch t i act =>
      rw [Client.step, Option.map_eq_some_iff] at taken
      obtain ⟨search, moved, rfl⟩ := taken
      exact inv.btch moved
  | others count =>
      cases taken
      exact { inv with }

theorem answerInv_of_reachable (isInt : ∀ t cmd, (jobOf t cmd).threadCount < 2 ^ 31)
    (reached : Reachable (Client.step jobOf) State.initial s) : AnswerInv jobOf s :=
  ReachableIf.invariant answerInv_initial
    (fun _ _ _ before inv _ taken =>
      inv.step (clientInv_of_reachable before).reader isInt taken) reached

end Steps

/-! ## The answers -/

/-- The line that a WORK handler sends is accepted as a solution. -/
theorem sent_answer_accepted (host : Host) (sha : List UInt8 → Uint256) (vars : Nat → WorkVars)
    {s : State}
    (reached : Reachable (step fun c => workJob host sha (vars c)) State.initial s)
    (c : Nat) (fields : WorkFields) (isWork : s.cmd c = fields.command) (line : List UInt8)
    (sent : (c, line) ∈ s.sent) :
    ∃ command, line = command ++ [13, 10] ∧ command.length = 95 ∧
      (∀ recv more, Holds recv (line ++ more) → ∃ cmd rest,
        getCommand recv = some (some (cmd, rest)) ∧ readString cmd = some command ∧
          Holds rest more) ∧
      dispatch command = .solnHandler ∧
      ∀ solnVars, solnHandler host sha solnVars command = okayReply := by
  have inv := answerInv_of_reachable (fun t cmd => workJob_isInt host sha (vars t) cmd) reached
  obtain ⟨_, solution, found, isLine⟩ := inv.sent c line sent
  rw [isWork] at found isLine
  obtain ⟨_, _, _, _, valid, _⟩ := found
  refine ⟨(answerFields fields solution).command, ?_, SolnFields.length_command _, ?_,
    dispatch_soln _, fun solnVars => answer_okay host sha (vars c) fields solution solnVars valid⟩
  · rw [isLine, workJob_result]
  · intro recv more holds
    rw [isLine, workJob_result, List.append_assoc] at holds
    exact getCommand_line holds fun byte member => (SolnFields.visible_command _ byte member).2.1

theorem length_oneThread : (ascii ['0', '1']).length = 2 := rfl

theorem isHex_oneThread : ∀ byte ∈ ascii ['0', '1'], IsHex byte := by decide +kernel

theorem positive_oneThread : 0 < hexNumber (ascii ['0', '1']) := by decide

/-- Difficulty `03ffffff`, start nonce 1 and one batch. -/
def lowWork : WorkFields where
  difficulty := ⟨ascii ['0', '3', 'f', 'f', 'f', 'f', 'f', 'f'], rfl, by decide +kernel⟩
  seed := ⟨List.replicate 64 48, length_zeroSeed, isHex_zeroSeed⟩
  n := ⟨List.replicate 15 48 ++ [49], rfl, by decide +kernel⟩
  threadCount := ⟨ascii ['0', '1'], length_oneThread, isHex_oneThread⟩
  positive := positive_oneThread

theorem sent_answer_accepted_lowWork :
    ∃ (s : State) (line command : List UInt8), (0, line) ∈ s.sent ∧ line = command ++ [13, 10] ∧
      command.length = 95 ∧ dispatch command = .solnHandler ∧
      solnHandler .littleEndian (fun _ => uint256Init) ⟨0, [], 0⟩ command = okayReply := by
  obtain ⟨s, reached, served⟩ :=
    exists_reachable_of_run
      (step fun _ => workJob .littleEndian (fun _ => uint256Init) ⟨0, [], 0, 0, []⟩)
      State.initial (serve lowWork.command 4 ++ solvedWork 0)
      (fun s => decide (s.cmd 0 = lowWork.command ∧ s.sent.map Prod.fst = [0]))
      (by decide +kernel)
  obtain ⟨isWork, senders⟩ := of_decide_eq_true served
  have sender : 0 ∈ s.sent.map Prod.fst := by
    rw [senders]
    exact List.mem_singleton_self 0
  obtain ⟨⟨_, line⟩, sent, rfl⟩ := List.mem_map.mp sender
  obtain ⟨command, isLine, length, -, isSoln, okay⟩ :=
    sent_answer_accepted .littleEndian (fun _ => uint256Init) (fun _ => ⟨0, [], 0, 0, []⟩)
      reached 0 lowWork isWork line sent
  exact ⟨s, line, command, sent, isLine, length, isSoln, okay _⟩

end BitcoinServer.Client
