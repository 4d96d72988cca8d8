import BitcoinServer.Client.Outcome
import BitcoinServer.Command.Handlers

/-!
Contract: what a client reads from its connection.

`Talk` is a client with the lines that its threads have written to the socket so far,
each with the command it answers. Every `send_message` is one write, so the order of the
steps is the order on the wire.

Owns, for every run: the lines that a command has been answered with are those of its
handler up to where its thread is, and the whole of what was written is a sequence of
reply lines, which the client gets back whatever the reads are that it arrives in.
-/

namespace BitcoinServer.Client

open BitcoinServer.Command BitcoinServer.Solution BitcoinServer.Work CText Transition

/-- The host, the hash and what the locals of the handlers held before. -/
structure Setup where
  host : Host
  sha : List UInt8 → Uint256
  workVars : Nat → WorkVars
  solnVars : Nat → SolnVars

def Setup.jobOf (setup : Setup) (c : Nat) (cmd : List UInt8) : Job :=
  workJob setup.host setup.sha (setup.workVars c) cmd

/-- The messages of a handler without batches, in order. -/
def Setup.replies (setup : Setup) (c : Nat) (cmd : List UInt8) : WorkerFunc → List (List UInt8)
  | .pingHandler => pingHandler
  | .pongHandler => pongHandler
  | .okayHandler => okayHandler
  | .erroHandler => erroHandler
  | .solnHandler => [solnHandler setup.host setup.sha (setup.solnVars c) cmd]
  | .slepHandler => slepHandler
  | .custHandler => custHandler errorHead fullOfWork
  | .unknHandler => unknHandler
  | .abrtHandler | .workHandler => []

/-- The line that a step writes: the SOLN line of `work_handler`, the first message of another
handler, or the one behind the `sleep` of `slep_handler`. -/
def Setup.written (setup : Setup) (s : State) : Label → List (Nat × List UInt8)
  | .handler c .move =>
      match s.pc c with
      | .work .send => [(c, (setup.jobOf c (s.cmd c)).result (s.search c).solution)]
      | .body => ((setup.replies c (s.cmd c) (s.func c))[0]?).toList.map (c, ·)
      | .wake => ((setup.replies c (s.cmd c) (s.func c))[1]?).toList.map (c, ·)
      | _ => []
  | _ => []

structure Talk where
  client : State
  written : List (Nat × List UInt8)

def Talk.initial : Talk := ⟨State.initial, []⟩

def talkStep (setup : Setup) (t : Talk) (label : Label) : Option Talk :=
  (step setup.jobOf t.client label).map fun next =>
    ⟨next, t.written ++ setup.written t.client label⟩

/-- The lines of one command. -/
def linesOf (c : Nat) (log : List (Nat × List UInt8)) : List (List UInt8) :=
  (log.filter fun entry => entry.1 = c).map Prod.snd

/-- How many messages a handler without batches has sent, no handler having a third one. -/
def Pc.progress : Pc → Nat
  | .nap | .wake | .died => 1
  | .wrapper | .ended _ => 2
  | _ => 0

/-- The lines that an effect writes. -/
def Effect.lines : Effect → List (List UInt8)
  | .send line => [line]
  | _ => []

section Lines

variable {setup : Setup} {s next : State} {c : Nat} {m : Move} {t : Talk}

theorem linesOf_append (log more : List (Nat × List UInt8)) :
    linesOf c (log ++ more) = linesOf c log ++ linesOf c more := by
  unfold linesOf
  rw [List.filter_append, List.map_append]

theorem linesOf_own (lines : List (List UInt8)) : linesOf c (lines.map (c, ·)) = lines := by
  induction lines with
  | nil => rfl
  | cons line lines inductionHypothesis => simpa [linesOf] using inductionHypothesis

theorem linesOf_other {d : Nat} (other : d ≠ c) (lines : List (List UInt8)) :
    linesOf c (lines.map (d, ·)) = [] := by
  simp [linesOf, other]

theorem linesOf_absent {log : List (Nat × List UInt8)} (absent : c ∉ log.map Prod.fst) :
    linesOf c log = [] := by
  unfold linesOf
  rw [List.map_eq_nil_iff, List.filter_eq_nil_iff]
  rintro entry member isOwn
  exact absent (List.mem_map.mpr ⟨entry, member, of_decide_eq_true isOwn⟩)

/-- A command with one entry in a log has one line in it. -/
theorem linesOf_once {log : List (Nat × List UInt8)} (once : (log.map Prod.fst).Nodup)
    {line : List UInt8} (member : (c, line) ∈ log) : linesOf c log = [line] := by
  induction log with
  | nil => cases member
  | cons entry log inductionHypothesis =>
      rw [List.map_cons, List.nodup_cons] at once
      rcases List.mem_cons.mp member with rfl | later
      · have own : linesOf c ((c, line) :: log) = line :: linesOf c log := by simp [linesOf]
        rw [own, linesOf_absent once.1]
      · have other : entry.1 ≠ c := fun same =>
          once.1 (same ▸ List.mem_map_of_mem later)
        have skipped : linesOf c (entry :: log) = linesOf c log := by simp [linesOf, other]
        rw [skipped, inductionHypothesis once.2 later]

theorem sent_perform : (s.perform c m).sent = s.sent ++ m.effect.lines.map (c, ·) := by
  rw [perform_sent]
  cases m.effect <;> simp [Effect.lines]

theorem HandlerRow.lines {job : Job} {before after : Pc} {effect : Effect}
    (row : HandlerRow job s c before after effect) (elsewhere : before ≠ .work .send) :
    effect.lines = [] := by
  cases row with
  | send => exact absurd rfl elsewhere
  | _ => rfl

/-- A handler with batches or with a walk through the queue has no other messages. -/
theorem replies_of_runs (setup : Setup) (s : State) {pc : Pc} (runs : pc.runs (s.func c))
    (threaded : pc.inWork = true ∨ ∃ at_, pc = .abrt at_) :
    setup.replies c (s.cmd c) (s.func c) = [] := by
  rcases threaded with inWork | ⟨at_, rfl⟩
  · have isWork : s.func c = .workHandler := by
      cases pc <;> first | exact runs | cases inWork
    rw [isWork]
    rfl
  · rw [show s.func c = .abrtHandler from runs]
    rfl

/-- `slep_handler` alone has a second message. -/
theorem no_second_reply (setup : Setup) (c : Nat) (cmd : List UInt8) {func : WorkerFunc}
    (awake : func ≠ .slepHandler) : (setup.replies c cmd func)[1]? = none := by
  cases func with
  | slepHandler => exact absurd rfl awake
  | _ => rfl

theorem replies_take_two (setup : Setup) (c : Nat) (cmd : List UInt8) (func : WorkerFunc) :
    (setup.replies c cmd func).take 2 = setup.replies c cmd func := by
  cases func <;> rfl

/-- What a step of a handler writes are its next messages. -/
theorem handlerStep_written {act : HandlerAct} (runs : (s.pc c).runs (s.func c))
    (moved : handlerStep (setup.jobOf c (s.cmd c)) s c act = some m) :
    ∃ lines, setup.written s (.handler c act) = (m.effect.lines ++ lines).map (c, ·) ∧
      (setup.replies c (s.cmd c) (s.func c)).take m.pc.progress =
        (setup.replies c (s.cmd c) (s.func c)).take (s.pc c).progress ++ lines ∧
      (m.effect.lines = [] ∨ s.func c = .workHandler) := by
  have row := handlerStep_row moved
  cases atPc : s.pc c with
  | work at_ =>
      rw [atPc] at runs row
      have noReply := replies_of_runs setup s runs (.inl rfl)
      refine ⟨[], ?_, by simp [noReply], .inr runs⟩
      by_cases atSend : at_ = .send
      · subst atSend
        cases act with
        | move =>
            simp only [handlerStep, handlerMove, atPc, workHandler, Option.some_inj] at moved
            subst moved
            simp [Setup.written, atPc, Effect.lines]
        | _ => simp [handlerStep, atPc, cancelPoint] at moved
      · rw [row.lines (by simpa using atSend)]
        cases act with
        | move => cases at_ <;> first | exact absurd rfl atSend | simp [Setup.written, atPc]
        | _ => rfl
  | cleanup via at_ =>
      rw [atPc] at runs row
      have noReply := replies_of_runs setup s runs (.inl rfl)
      rw [row.lines (by simp)]
      exact ⟨[], by cases act <;> simp [Setup.written, atPc], by simp [noReply], .inl rfl⟩
  | abrt at_ =>
      rw [atPc] at runs row
      have noReply := replies_of_runs setup s runs (.inr ⟨at_, rfl⟩)
      rw [row.lines (by simp)]
      exact ⟨[], by cases act <;> simp [Setup.written, atPc], by simp [noReply], .inl rfl⟩
  | body =>
      cases act with
      | move =>
          simp only [handlerStep, handlerMove, atPc, Option.some_inj] at moved
          subst moved
          refine ⟨((setup.replies c (s.cmd c) (s.func c))[0]?).toList, ?_, ?_, .inl rfl⟩
          · simp [Setup.written, atPc, Effect.lines]
          · by_cases sleeper : s.func c = .slepHandler
            · simp [sleeper, Pc.progress, Setup.replies, slepHandler]
            · have single := no_second_reply setup c (s.cmd c) sleeper
              simp [sleeper, Pc.progress, List.take_add_one, single]
      | _ => simp [handlerStep, atPc, cancelPoint] at moved
  | nap =>
      refine ⟨[], ?_⟩
      cases act with
      | move =>
          simp only [handlerStep, handlerMove, atPc, Option.some_inj] at moved
          subst moved
          exact ⟨by simp [Setup.written, atPc, Effect.lines], (List.append_nil _).symm, .inl rfl⟩
      | actCancel =>
          simp only [handlerStep, atPc, cancelPoint, Option.map_some,
            Option.ite_none_right_eq_some, Option.some_inj] at moved
          obtain ⟨_, rfl⟩ := moved
          exact ⟨rfl, (List.append_nil _).symm, .inl rfl⟩
      | stale found => simp [handlerStep, atPc] at moved
  | wake =>
      cases act with
      | move =>
          simp only [handlerStep, handlerMove, atPc, Option.some_inj] at moved
          subst moved
          refine ⟨((setup.replies c (s.cmd c) (s.func c))[1]?).toList, ?_, ?_, .inl rfl⟩
          · simp [Setup.written, atPc, Effect.lines]
          · exact List.take_add_one
      | _ => simp [handlerStep, atPc, cancelPoint] at moved
  | wrapper =>
      cases act with
      | move =>
          simp only [handlerStep, handlerMove, atPc, Option.some_inj] at moved
          subst moved
          exact ⟨[], by simp [Setup.written, atPc, Effect.lines], (List.append_nil _).symm,
            .inl rfl⟩
      | _ => simp [handlerStep, atPc, cancelPoint] at moved
  | _ =>
      rw [atPc] at row
      exact absurd row.live (by simp [Pc.created, Pc.finished])

/-- The lines of every command are its SOLN line and the messages that it has come to. -/
def Accounted (setup : Setup) (t : Talk) : Prop :=
  ∀ c, linesOf c t.written = linesOf c t.client.sent ++
    (setup.replies c (t.client.cmd c) (t.client.func c)).take (t.client.pc c).progress

theorem firstPc_progress (func : WorkerFunc) : (firstPc func).progress = 0 := by
  cases func <;> rfl

theorem Pc.progress_of_not_created {pc : Pc} (missing : pc.created = false) : pc.progress = 0 := by
  cases pc <;> first | rfl | cases missing

theorem Accounted.reader {act : ReaderAct} (inv : Accounted setup t)
    (readerInv : ReaderInv t.client) (row : ReaderRow t.client next) :
    Accounted setup ⟨next, t.written ++ setup.written t.client (.reader act)⟩ := by
  intro c
  show linesOf c (t.written ++ []) = linesOf c next.sent ++ _
  rw [List.append_nil, row.search_sent.2, inv c]
  congr 1
  by_cases created : (t.client.pc c).created = true
  · have inCount : c < t.client.count := by
      apply readerInv.lt_count
      intro unread
      rw [unread] at created
      cases created
    rw [row.pc_created readerInv created, row.func_created readerInv created, row.cmd inCount]
  · rw [Bool.not_eq_true] at created
    have before := Pc.progress_of_not_created created
    have after : (next.pc c).progress = 0 := by
      rcases row.pc c with same | claimed | failed | first
      · rw [same, before]
      · rw [claimed]
        rfl
      · rw [failed]
        rfl
      · rw [first, firstPc_progress]
    rw [before, after, List.take_zero, List.take_zero]

theorem Accounted.handler {act : HandlerAct} (inv : Accounted setup t)
    (runs : (t.client.pc c).runs (t.client.func c))
    (moved : handlerStep (setup.jobOf c (t.client.cmd c)) t.client c act = some m) :
    Accounted setup
      ⟨t.client.perform c m, t.written ++ setup.written t.client (.handler c act)⟩ := by
  obtain ⟨lines, written, progress, exclusive⟩ := handlerStep_written runs moved
  intro d
  show linesOf d (t.written ++ setup.written t.client (.handler c act)) =
    linesOf d (t.client.perform c m).sent ++ List.take ((t.client.perform c m).pc d).progress
      (setup.replies d ((t.client.perform c m).cmd d) ((t.client.perform c m).func d))
  rw [written, linesOf_append, inv d, sent_perform, linesOf_append, perform_pc, perform_cmd,
    perform_func]
  by_cases self : d = c
  · subst self
    rw [linesOf_own, linesOf_own, Function.update_self, progress]
    rcases exclusive with silent | isWork
    · rw [silent, List.nil_append, List.append_nil, List.append_assoc]
    · -- a WORK handler has no messages but its SOLN line
      have none : setup.replies d (t.client.cmd d) (t.client.func d) = [] := by
        rw [isWork]
        rfl
      rw [none, List.take_nil, List.take_nil] at progress
      have noLines : lines = [] := progress.symm
      rw [none, noLines, List.take_nil]
      simp
  · rw [linesOf_other (Ne.symm self), linesOf_other (Ne.symm self), Function.update_of_ne self,
      List.append_nil, List.append_nil]

theorem accounted_of_reachable (reached : Reachable (talkStep setup) Talk.initial t) :
    Reachable (step setup.jobOf) State.initial t.client ∧ Accounted setup t := by
  apply Reachable.invariant _ _ reached
  · exact ⟨.here, fun c => by simp [Talk.initial, State.initial, linesOf, Pc.progress]⟩
  · intro source label target holds taken
    obtain ⟨before, inv⟩ := holds
    rw [talkStep, Option.map_eq_some_iff] at taken
    obtain ⟨next, stepped, rfl⟩ := taken
    refine ⟨before.advance label stepped, ?_⟩
    have clientInv := clientInv_of_reachable before
    cases label with
    | reader act => exact inv.reader clientInv.reader (readerStep_row stepped)
    | handler c act =>
        rw [step, Option.map_eq_some_iff] at stepped
        obtain ⟨m, moved, rfl⟩ := stepped
        exact inv.handler (clientInv.queue.runs c) moved
    | btch c i act =>
        rw [step, Option.map_eq_some_iff] at stepped
        obtain ⟨search, _, rfl⟩ := stepped
        intro d
        show linesOf d (source.written ++ []) = _
        rw [List.append_nil]
        exact inv d
    | others count =>
        cases stepped
        intro d
        show linesOf d (source.written ++ []) = _
        rw [List.append_nil]
        exact inv d

end Lines

/-! ## The answers of a client -/

/-- The SOLN lines of a command are the one line of its WORK handler, once it has replied. -/
theorem linesOf_sent {jobOf : Nat → List UInt8 → Job} {s : State} (outcome : OutcomeInv s)
    (answers : AnswerInv jobOf s) (c : Nat) :
    if s.func c = .workHandler ∧ (s.pc c).replied = true then
      ∃ solution, Found (jobOf c (s.cmd c)) solution ∧
        linesOf c s.sent = [(jobOf c (s.cmd c)).result solution]
    else linesOf c s.sent = [] := by
  by_cases replied : s.func c = .workHandler ∧ (s.pc c).replied = true
  · rw [if_pos replied]
    obtain ⟨⟨_, line⟩, member, rfl⟩ := List.mem_map.mp ((outcome.answered c).mpr replied)
    obtain ⟨_, solution, found, isLine⟩ := answers.sent _ line member
    exact ⟨solution, found, isLine ▸ linesOf_once outcome.once member⟩
  · rw [if_neg replied]
    exact linesOf_absent fun member => replied ((outcome.answered c).mp member)

/-- In every run the lines with which a command has been answered are, in order: for WORK, the
line of a solution that its batches have found, once `work_handler` has replied; for ABRT none;
for any other command the messages of its handler up to where its thread is, and all of them
when the thread has ended without being cancelled in its sleep. -/
theorem answers_so_far (setup : Setup) {t : Talk}
    (reached : Reachable (talkStep setup) Talk.initial t) (c : Nat) :
    let job := setup.jobOf c (t.client.cmd c)
    let replies := setup.replies c (t.client.cmd c) (t.client.func c)
    (t.client.func c = .workHandler →
      if (t.client.pc c).replied = true then
        ∃ solution, Found job solution ∧ linesOf c t.written = [job.result solution]
      else linesOf c t.written = []) ∧
    (t.client.func c ≠ .workHandler →
      linesOf c t.written = replies.take (t.client.pc c).progress ∧
      ∀ via, t.client.pc c = .ended via → linesOf c t.written = replies) := by
  intro job replies
  obtain ⟨clientReached, inv⟩ := accounted_of_reachable reached
  have answers := answerInv_of_reachable
    (fun c cmd => workJob_isInt setup.host setup.sha (setup.workVars c) cmd) clientReached
  have lines := linesOf_sent (outcomeInv_of_reachable clientReached) answers c
  constructor
  · intro isWork
    have nothing : replies = [] := by
      show setup.replies c (t.client.cmd c) (t.client.func c) = []
      rw [isWork]
      rfl
    rw [inv c, show setup.replies c _ _ = [] from nothing, List.take_nil, List.append_nil]
    by_cases replied : (t.client.pc c).replied = true
    · rw [if_pos ⟨isWork, replied⟩] at lines
      rw [if_pos replied]
      exact lines
    · rw [if_neg fun both => replied both.2] at lines
      rw [if_neg replied]
      exact lines
  · intro other
    rw [if_neg fun both => other both.1] at lines
    have soFar : linesOf c t.written = replies.take (t.client.pc c).progress := by
      rw [inv c, lines, List.nil_append]
    refine ⟨soFar, fun via ended => ?_⟩
    rw [soFar, ended]
    exact replies_take_two setup c (t.client.cmd c) (t.client.func c)

/-! ## The whole of what is written -/

theorem isReply_replies (setup : Setup) (c : Nat) (cmd : List UInt8) (func : WorkerFunc) :
    ∀ line ∈ setup.replies c cmd func, IsReply line := by
  cases func with
  | pingHandler => exact List.forall_mem_singleton.mpr isReply_pong
  | solnHandler =>
      have verdict : IsReply (solnHandler setup.host setup.sha (setup.solnVars c) cmd) := by
        have either : solnHandler setup.host setup.sha (setup.solnVars c) cmd = okayReply ∨
            solnHandler setup.host setup.sha (setup.solnVars c) cmd =
              sendFormatted errorHead notValid := ite_eq_or_eq _ _ _
        rcases either with valid | invalid
        · rw [valid]
          exact isReply_okay
        · rw [invalid]
          exact isReply_sendFormatted rfl (by decide +kernel)
      exact List.forall_mem_singleton.mpr verdict
  | slepHandler =>
      exact List.forall_mem_cons.mpr ⟨isReply_sendFormatted rfl (by decide +kernel),
        List.forall_mem_singleton.mpr (isReply_sendFormatted rfl (by decide +kernel))⟩
  | abrtHandler | workHandler => exact List.forall_mem_nil _
  | _ => exact List.forall_mem_singleton.mpr (isReply_sendFormatted rfl (by decide +kernel))

theorem isReply_result (setup : Setup) (c : Nat) (fields : WorkFields) (solution : UInt64) :
    IsReply ((setup.jobOf c fields.command).result solution) := by
  let answer := answerFields fields solution
  refine ⟨⟨answer.command, answer.visible_command⟩, ?_, ?_⟩
  · exact Nat.le_of_eq answer.length_command
  · exact workJob_result setup.host setup.sha (setup.workVars c) fields solution

/-- In every run whose WORK commands are well-formed, the bytes that the server has written are
reply lines, and a client that frames like the server gets back just these lines, in the order
in which they were written and whatever the reads are that the bytes arrive in. -/
theorem answers_received (setup : Setup) {t : Talk}
    (reached : Reachable (talkStep setup) Talk.initial t)
    (wellFormed : ∀ c < t.client.count, t.client.func c = .workHandler →
      ∃ fields : WorkFields, t.client.cmd c = fields.command)
    {chunks : List Chunk} (cuts : Cuts chunks (t.written.map Prod.snd).flatten) :
    ∃ s, receiveRounds (.initial chunks) chunks.length = some s ∧
      s.dispatched = (t.written.map Prod.snd).map body ∧ s.recv.retained = [] := by
  obtain ⟨clientReached, inv⟩ := accounted_of_reachable reached
  have outcome := outcomeInv_of_reachable clientReached
  have answers := answerInv_of_reachable
    (fun c cmd => workJob_isInt setup.host setup.sha (setup.workVars c) cmd) clientReached
  apply receiveRounds_lines _ cuts
  intro line member
  obtain ⟨⟨c, _⟩, written, rfl⟩ := List.mem_map.mp member
  have ofCommand : _ ∈ linesOf c t.written :=
    List.mem_map.mpr ⟨_, List.mem_filter.mpr ⟨written, decide_eq_true rfl⟩, rfl⟩
  rw [inv c] at ofCommand
  rcases List.mem_append.mp ofCommand with isSoln | isMessage
  · obtain ⟨⟨d, line⟩, kept, rfl⟩ := List.mem_map.mp isSoln
    obtain ⟨sent, own⟩ := List.mem_filter.mp kept
    obtain rfl : d = c := of_decide_eq_true own
    obtain ⟨inCount, solution, _, rfl⟩ := answers.sent d line sent
    obtain ⟨fields, isCommand⟩ :=
      wellFormed d inCount ((outcome.answered d).mp (List.mem_map_of_mem sent)).1
    rw [isCommand]
    exact isReply_result setup d fields solution
  · exact isReply_replies setup c _ _ _ (List.mem_of_mem_take isMessage)

/-- A host, a hash that is 0 and locals that were 0, with room for a word of any line in
`raw_seed`. -/
def zeroSetup : Setup :=
  ⟨.littleEndian, fun _ => uint256Init, fun _ => ⟨0, List.replicate 94 0, 0, 0, []⟩,
    fun _ => ⟨0, List.replicate 91 0, 0⟩⟩

def slepCmd : List UInt8 := ascii ['S', 'L', 'E', 'P']

/-- SLEP and PING, PING being answered while the other handler sleeps. -/
def pingInSleep : List Label :=
  [serve slepCmd 3, moves 0 1, serve pingCmd 3, moves 1 2, moves 0 3].flatten

theorem answers_so_far_pingInSleep :
    ∃ t, Reachable (talkStep zeroSetup) Talk.initial t ∧ t.client.pc 0 = .ended .popped ∧
      linesOf 0 t.written = slepHandler := by
  obtain ⟨t, reached, ended⟩ :=
    exists_reachable_of_run (talkStep zeroSetup) Talk.initial pingInSleep
      (fun t => decide (t.client.func 0 = .slepHandler ∧ t.client.pc 0 = .ended .popped))
      (by decide +kernel)
  obtain ⟨isSlep, isOver⟩ := of_decide_eq_true ended
  have lines := (answers_so_far zeroSetup reached 0).2 (by rw [isSlep]; decide)
  refine ⟨t, reached, isOver, ?_⟩
  rw [lines.2 .popped isOver, isSlep]
  rfl

/-- A WORK that is solved and answered, and a PING in its slot. -/
def minedAndPing : List Label :=
  [serve lowWork.command 4, solvedWork 0, moves 0 1, serve pingCmd 4, moves 1 2].flatten

theorem answers_received_minedAndPing :
    ∃ t s, Reachable (talkStep zeroSetup) Talk.initial t ∧ t.written.map Prod.fst = [0, 1] ∧
      t.client.func 0 = .workHandler ∧
      receiveRounds (.initial (singles (t.written.map Prod.snd).flatten))
        (singles (t.written.map Prod.snd).flatten).length = some s ∧
      s.dispatched.length = 2 ∧ s.recv.retained = [] := by
  obtain ⟨t, reached, ended⟩ :=
    exists_reachable_of_run (talkStep zeroSetup) Talk.initial minedAndPing
      (fun t => decide (t.written.map Prod.fst = [0, 1] ∧ t.client.count = 2 ∧
        t.client.func 0 = .workHandler ∧ t.client.cmd 0 = lowWork.command ∧
          t.client.func 1 = .pingHandler)) (by decide +kernel)
  obtain ⟨order, two, isWork, isCommand, isPing⟩ := of_decide_eq_true ended
  have wellFormed : ∀ c < t.client.count, t.client.func c = .workHandler →
      ∃ fields : WorkFields, t.client.cmd c = fields.command := by
    intro c inCount work
    by_cases first : c = 0
    · exact ⟨lowWork, by rw [first, isCommand]⟩
    · obtain rfl : c = 1 := by omega
      rw [isPing] at work
      cases work
  obtain ⟨s, ran, dispatched, retained⟩ := answers_received zeroSetup reached wellFormed
    (cuts_singles _)
  have both : t.written.length = 2 := by
    rw [← List.length_map Prod.fst, order]
    rfl
  refine ⟨t, s, reached, order, isWork, ran, ?_, retained⟩
  rw [dispatched, List.length_map, List.length_map, both]

end BitcoinServer.Client
