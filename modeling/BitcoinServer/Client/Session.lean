import BitcoinServer.Client.Transcript
import BitcoinServer.Work.SeedBuffer

/-!
Contract: a client from the bytes it sends to the bytes it gets.

`Session` puts the receive buffer of `client_handler` under the reader: the outer loop reads a
chunk where the buffer has no command, the inner one takes the commands out of it, and what it
takes is what the reader dispatches. Between any two steps of the reader the other threads of the
client may take theirs.

Owns, for every run: the commands taken are the first lines of what was received, each once and
in order, all of them whenever the reader is back at its `read`, and command number `i` is
answered by the handler for line number `i`. From this follows what a client gets for a SOLN line,
and that what one client gets for a WORK line any client may send as SOLN.
-/

namespace BitcoinServer.Client

open BitcoinServer.Command BitcoinServer.Solution BitcoinServer.Work CText Transition

/-- `draining` is set in the inner loop, the one over `get_command`; `seen` are the chunks read. -/
structure Session where
  talk : Talk
  recv : RecvBuffer
  draining : Bool
  seen : List Chunk

def Session.initial : Session := ⟨.initial, .initial, false, []⟩

/-- `read` and `skip` are the two ways through the test of `has_command`, `next` is the test of
the inner loop, and `thread` any step that takes no input. -/
inductive SessionLabel where
  | read (chunk : Chunk)
  | skip
  | endOfInput
  | next
  | thread (label : Label)

/-- The steps of the reader that depend on the input. -/
def Label.takesInput : Label → Bool
  | .reader (.take _) | .reader .disconnect => true
  | _ => false

/-- The reader is at the head of the outer loop. -/
def Session.AtHead (s : Session) : Prop := s.talk.client.reader = .idle ∧ s.draining = false

instance (s : Session) : Decidable s.AtHead := inferInstanceAs (Decidable (_ ∧ _))

def sessionStep (setup : Setup) (s : Session) : SessionLabel → Option Session
  | .read chunk =>
      if s.AtHead ∧ hasCommand s.recv = false then
        (joinClientCommand s.recv chunk.buffer).map fun recv =>
          { s with recv := recv, draining := true, seen := s.seen ++ [chunk] }
      else none
  | .skip =>
      if s.AtHead ∧ hasCommand s.recv = true then some { s with draining := true } else none
  | .endOfInput =>
      if s.AtHead ∧ hasCommand s.recv = false then
        (talkStep setup s.talk (.reader .disconnect)).map fun talk => { s with talk := talk }
      else none
  | .next =>
      if s.talk.client.reader = .idle ∧ s.draining = true then
        match getCommand s.recv with
        | none => none
        | some none => some { s with draining := false }
        | some (some (cmd, rest)) =>
            (readString cmd).bind fun command =>
              (talkStep setup s.talk (.reader (.take command))).map fun talk =>
                { s with talk := talk, recv := rest }
      else none
  | .thread label =>
      if label.takesInput then none
      else (talkStep setup s.talk label).map fun talk => { s with talk := talk }

/-! ## The commands taken -/

/-- A command taken that has no slot yet. -/
def Reader.claimed : Reader → List (List UInt8)
  | .claiming cmd => [cmd]
  | _ => []

/-- The commands taken so far, in order. -/
def State.taken (s : State) : List (List UInt8) :=
  (List.range s.count).map s.cmd ++ s.reader.claimed

/-- What a step takes. -/
def Label.takes : Label → List (List UInt8)
  | .reader (.take cmd) => [cmd]
  | _ => []

section Taken

variable {jobOf : Nat → List UInt8 → Job} {s next : State} {label : Label}

theorem taken_claim (cmd : List UInt8) (slot : Nat) (atClaim : s.reader = .claiming cmd) :
    (s.claim cmd slot).taken = s.taken := by
  have old : (List.range s.count).map (Function.update s.cmd s.count cmd) =
      (List.range s.count).map s.cmd := by
    apply List.map_congr_left
    intro c member
    exact Function.update_of_ne (Nat.ne_of_lt (List.mem_range.mp member)) ..
  show (List.range (s.count + 1)).map (Function.update s.cmd s.count cmd) ++ [] = _
  rw [List.append_nil, List.range_succ, List.map_append, old, State.taken, atClaim]
  simp [Reader.claimed]

theorem readerStep_taken {act : ReaderAct} (stepped : readerStep s act = some next) :
    next.taken = s.taken ++ (Label.reader act).takes := by
  have row := readerStep_row stepped
  cases row with
  | take cmd atRead =>
      cases act with
      | take other =>
          rw [readerStep, if_pos atRead, Option.some_inj] at stepped
          have same := congrArg State.reader stepped
          cases same
          simp [State.taken, Reader.claimed, Label.takes, atRead]
      | disconnect =>
          rw [readerStep, if_pos atRead, Option.some_inj] at stepped
          have same := congrArg State.reader stepped
          cases same
      | _ => simp [readerStep, atRead] at stepped
  | claim cmd slot atClaim avail =>
      cases act with
      | move =>
          show (s.claim cmd slot).taken = s.taken ++ []
          rw [taken_claim cmd slot atClaim, List.append_nil]
      | _ => simp [readerStep, atClaim] at stepped
  | _ =>
      cases act <;> simp_all [readerStep, State.taken, Reader.claimed, Label.takes, State.join]

theorem step_taken (stepped : step jobOf s label = some next) :
    next.taken = s.taken ++ label.takes := by
  cases label with
  | reader act => exact readerStep_taken stepped
  | handler c act =>
      rw [step, Option.map_eq_some_iff] at stepped
      obtain ⟨m, _, rfl⟩ := stepped
      simp [State.taken, Label.takes]
  | btch c i act =>
      rw [step, Option.map_eq_some_iff] at stepped
      obtain ⟨search, _, rfl⟩ := stepped
      exact (List.append_nil _).symm
  | others count =>
      cases stepped
      exact (List.append_nil _).symm

end Taken

/-! ## The handler of a command -/

/-- The handler is the one that `dispatch` picks, or a refusal in place of WORK. -/
def Dispatched (s : State) : Prop :=
  ∀ c < s.count, s.func c = dispatch (s.cmd c) ∨
    dispatch (s.cmd c) = .workHandler ∧ s.func c = .custHandler

section Dispatching

variable {jobOf : Nat → List UInt8 → Job} {s next : State} {label : Label}

theorem Dispatched.reader (inv : Dispatched s) (row : ReaderRow s next) : Dispatched next := by
  cases row with
  | claim cmd slot atClaim avail =>
      intro c inCount
      show Function.update s.func s.count (dispatch cmd) c =
          dispatch (Function.update s.cmd s.count cmd c) ∨
        dispatch (Function.update s.cmd s.count cmd c) = .workHandler ∧
          Function.update s.func s.count (dispatch cmd) c = .custHandler
      by_cases fresh : c = s.count
      · rw [fresh, Function.update_self, Function.update_self]
        exact .inl rfl
      · rw [Function.update_of_ne fresh, Function.update_of_ne fresh]
        exact inv c (Nat.lt_of_le_of_ne (Nat.lt_succ_iff.mp inCount) fresh)
  | refuse c atDispatch isWork full =>
      intro d inCount
      show Function.update s.func c .custHandler d = dispatch (s.cmd d) ∨
        dispatch (s.cmd d) = .workHandler ∧ Function.update s.func c .custHandler d = .custHandler
      by_cases self : d = c
      · rw [self, Function.update_self]
        rcases inv c (self ▸ inCount) with picked | ⟨_, refused⟩
        · exact .inr ⟨by rw [← picked, isWork], rfl⟩
        · rw [isWork] at refused
          cases refused
      · rw [Function.update_of_ne self]
        exact inv d inCount
  | _ => simpa [Dispatched, State.join] using inv

theorem Dispatched.step (inv : Dispatched s)
    (stepped : Client.step jobOf s label = some next) : Dispatched next := by
  rcases step_cases stepped with ⟨_, _, row⟩ | ⟨c, _, m, _, _, _, rfl⟩ | ⟨_, _, rfl⟩
  · exact inv.reader row
  · simpa [Dispatched] using inv
  · exact inv

theorem dispatched_of_reachable (reached : Reachable (Client.step jobOf) State.initial s) :
    Dispatched s :=
  reached.invariant (fun c inCount => absurd inCount (Nat.not_lt_zero c))
    fun _ _ _ inv stepped => inv.step stepped

end Dispatching

/-! ## The buffer and the reader -/

theorem talkStep_client {setup : Setup} {t next : Talk} {label : Label}
    (stepped : talkStep setup t label = some next) :
    step setup.jobOf t.client label = some next.client := by
  rw [talkStep, Option.map_eq_some_iff] at stepped
  obtain ⟨client, moved, rfl⟩ := stepped
  exact moved

/-- The buffer holds what was received behind the lines taken. -/
structure Buffered (s : Session) (bytes : List UInt8) : Prop where
  holds : Holds s.recv bytes
  lines : (commands (received s.seen)).1 = s.talk.client.taken ++ (commands bytes).1
  kept : (commands (received s.seen)).2 = (commands bytes).2
  drained : s.draining = false → (commands bytes).1 = []

section Sessions

variable {setup : Setup} {s next : Session} {bytes : List UInt8}

theorem cut_eq_none_of_commands (nothing : (commands bytes).1 = []) :
    LineSplit.cut 13 10 bytes = none := by
  match found : LineSplit.cut 13 10 bytes with
  | none => rfl
  | some (front, back) =>
      unfold commands at nothing
      rw [LineSplit.split_of_cut found] at nothing
      cases nothing

theorem commands_of_cut_none (nothing : LineSplit.cut 13 10 bytes = none) :
    commands bytes = ([], bytes) :=
  LineSplit.split_of_cut_none nothing

theorem commands_append (first second : List UInt8) :
    commands (first ++ second) = ((commands first).1 ++ (commands ((commands first).2 ++ second)).1,
      (commands ((commands first).2 ++ second)).2) :=
  LineSplit.split_append 13 10 first second

theorem buffered_initial : Buffered .initial [] := by
  have nothing : commands [] = ([], []) := LineSplit.split_of_cut_none rfl
  refine ⟨holds_initial, ?_, rfl, fun _ => ?_⟩
  · show (commands []).1 = [] ++ (commands []).1
    rfl
  · rw [nothing]

/-- A read goes behind what the buffer has kept. -/
theorem Buffered.read {chunk : Chunk} {recv : RecvBuffer} (buffered : Buffered s bytes)
    (atHead : s.draining = false)
    (joined : joinClientCommand s.recv chunk.buffer = some recv) :
    Buffered { s with recv := recv, draining := true, seen := s.seen ++ [chunk] }
      (bytes ++ chunk.eff) := by
  have small : bytes.length + chunk.eff.length < 2 ^ 30 := by
    by_contra outgrown
    rw [joinClientCommand_none buffered.holds chunk (Nat.not_lt.mp outgrown)] at joined
    cases joined
  obtain ⟨recv', joined', holds⟩ := joinClientCommand_holds buffered.holds chunk small
  rw [joined, Option.some_inj] at joined'
  subst joined'
  have nothing := commands_of_cut_none (cut_eq_none_of_commands (buffered.drained atHead))
  have stream : received (s.seen ++ [chunk]) = received s.seen ++ chunk.eff := by
    unfold received
    rw [List.flatMap_append, List.flatMap_singleton]
  have kept : (commands (received s.seen)).2 = bytes := by rw [buffered.kept, nothing]
  have lines : (commands (received s.seen)).1 = s.talk.client.taken := by
    rw [buffered.lines, nothing, List.append_nil]
  refine ⟨holds, ?_, ?_, nofun⟩
  · show (commands (received (s.seen ++ [chunk]))).1 = s.talk.client.taken ++ _
    rw [stream, commands_append, kept, lines]
  · show (commands (received (s.seen ++ [chunk]))).2 = _
    rw [stream, commands_append, kept]

/-- A step of the threads takes nothing out of the buffer. -/
theorem Buffered.talk {t : Talk} {label : Label} (buffered : Buffered s bytes)
    (silent : label.takes = []) (stepped : talkStep setup s.talk label = some t) :
    Buffered { s with talk := t } bytes := by
  have taken := step_taken (talkStep_client stepped)
  rw [silent, List.append_nil] at taken
  refine ⟨buffered.holds, ?_, buffered.kept, buffered.drained⟩
  show _ = t.client.taken ++ _
  rw [taken]
  exact buffered.lines

/-- The inner loop takes the first line out of the buffer, and ends where there is none. -/
theorem Buffered.inner (buffered : Buffered s bytes)
    (stepped : sessionStep setup s .next = some next) : ∃ bytes, Buffered next bytes := by
  rw [sessionStep, Option.ite_none_right_eq_some] at stepped
  obtain ⟨⟨_, draining⟩, stepped⟩ := stepped
  match found : LineSplit.cut 13 10 bytes with
  | none =>
      rw [getCommand_of_none buffered.holds found] at stepped
      cases stepped
      refine ⟨bytes, buffered.holds, buffered.lines, buffered.kept, fun _ => ?_⟩
      rw [commands_of_cut_none found]
  | some (front, back) =>
      obtain ⟨cmd, rest, isCommand, read, holds⟩ := getCommand_of_cut buffered.holds found
      simp only [isCommand, read, Option.bind_some, Option.map_eq_some_iff] at stepped
      obtain ⟨t, taking, rfl⟩ := stepped
      have taken : t.client.taken = s.talk.client.taken ++ [front] :=
        step_taken (talkStep_client taking)
      have split : commands bytes = (front :: (commands back).1, (commands back).2) :=
        LineSplit.split_of_cut found
      refine ⟨back, holds, ?_, ?_, fun ended => absurd (draining.symm.trans ended) (by decide)⟩
      · show (commands (received s.seen)).1 = t.client.taken ++ (commands back).1
        rw [buffered.lines, split, taken, List.append_assoc]
        rfl
      · show (commands (received s.seen)).2 = (commands back).2
        rw [buffered.kept, split]

theorem Buffered.step {label : SessionLabel} (buffered : Buffered s bytes)
    (stepped : sessionStep setup s label = some next) : ∃ bytes, Buffered next bytes := by
  cases label with
  | next => exact buffered.inner stepped
  | read chunk =>
      rw [sessionStep, Option.ite_none_right_eq_some, Option.map_eq_some_iff] at stepped
      obtain ⟨⟨atHead, _⟩, recv, joined, rfl⟩ := stepped
      exact ⟨_, buffered.read atHead.2 joined⟩
  | skip =>
      rw [sessionStep, Option.ite_none_right_eq_some] at stepped
      obtain ⟨_, ⟨⟩⟩ := stepped
      exact ⟨bytes, buffered.holds, buffered.lines, buffered.kept, nofun⟩
  | endOfInput =>
      rw [sessionStep, Option.ite_none_right_eq_some, Option.map_eq_some_iff] at stepped
      obtain ⟨_, t, ending, rfl⟩ := stepped
      exact ⟨bytes, buffered.talk rfl ending⟩
  | thread label =>
      rw [sessionStep, Option.ite_none_left_eq_some, Option.map_eq_some_iff] at stepped
      obtain ⟨noInput, t, moved, rfl⟩ := stepped
      refine ⟨bytes, buffered.talk ?_ moved⟩
      cases label with
      | reader act => cases act <;> first | rfl | exact absurd rfl noInput
      | _ => rfl

/-- A step of a session is one of its threads or leaves them alone. -/
theorem sessionStep_talk {label : SessionLabel} (stepped : sessionStep setup s label = some next) :
    next.talk = s.talk ∨ ∃ moved, talkStep setup s.talk moved = some next.talk := by
  cases label with
  | read chunk =>
      rw [sessionStep, Option.ite_none_right_eq_some, Option.map_eq_some_iff] at stepped
      obtain ⟨_, recv, _, rfl⟩ := stepped
      exact .inl rfl
  | skip =>
      rw [sessionStep, Option.ite_none_right_eq_some] at stepped
      obtain ⟨_, ⟨⟩⟩ := stepped
      exact .inl rfl
  | endOfInput =>
      rw [sessionStep, Option.ite_none_right_eq_some, Option.map_eq_some_iff] at stepped
      obtain ⟨_, t, ending, rfl⟩ := stepped
      exact .inr ⟨_, ending⟩
  | next =>
      rw [sessionStep, Option.ite_none_right_eq_some] at stepped
      obtain ⟨_, stepped⟩ := stepped
      match found : getCommand s.recv with
      | none => simp [found] at stepped
      | some none =>
          simp only [found, Option.some_inj] at stepped
          subst stepped
          exact .inl rfl
      | some (some (cmd, rest)) =>
          simp only [found, Option.bind_eq_some_iff, Option.map_eq_some_iff] at stepped
          obtain ⟨_, _, t, taking, rfl⟩ := stepped
          exact .inr ⟨_, taking⟩
  | thread label =>
      rw [sessionStep, Option.ite_none_left_eq_some, Option.map_eq_some_iff] at stepped
      obtain ⟨_, t, moved, rfl⟩ := stepped
      exact .inr ⟨_, moved⟩

theorem session_of_reachable (reached : Reachable (sessionStep setup) Session.initial s) :
    Reachable (talkStep setup) Talk.initial s.talk ∧ ∃ bytes, Buffered s bytes := by
  apply Reachable.invariant _ _ reached
  · exact ⟨.here, [], buffered_initial⟩
  · intro source label target ⟨before, bytes, buffered⟩ stepped
    refine ⟨?_, buffered.step stepped⟩
    rcases sessionStep_talk stepped with same | ⟨moved, taken⟩
    · rw [same]
      exact before
    · exact before.advance moved taken

/-- The reader gets through the test of its inner loop, whatever the buffer holds. -/
theorem Buffered.inner_isSome (setup : Setup) (buffered : Buffered s bytes)
    (idle : s.talk.client.reader = .idle) (draining : s.draining = true) :
    ∃ next, sessionStep setup s .next = some next := by
  match found : LineSplit.cut 13 10 bytes with
  | none =>
      have nothing := getCommand_of_none buffered.holds found
      simp [sessionStep, idle, draining, nothing]
  | some (front, back) =>
      obtain ⟨cmd, rest, isCommand, read, _⟩ := getCommand_of_cut buffered.holds found
      have taking : Client.step setup.jobOf s.talk.client (.reader (.take front)) =
          some { s.talk.client with reader := .claiming front } := if_pos idle
      simp [sessionStep, idle, draining, isCommand, read, talkStep, taking]

theorem taken_getElem {client : State} {c : Nat} (inCount : c < client.count) :
    client.taken[c]? = some (client.cmd c) := by
  have inRange : c < ((List.range client.count).map client.cmd).length := by
    rwa [List.length_map, List.length_range]
  rw [State.taken, List.getElem?_append_left inRange, List.getElem?_map,
    List.getElem?_range inCount]
  rfl

theorem line_of_command (buffered : Buffered s bytes) {c : Nat}
    (inCount : c < s.talk.client.count) :
    (commands (received s.seen)).1[c]? = some (s.talk.client.cmd c) := by
  have line := taken_getElem inCount
  rw [buffered.lines, List.getElem?_append_left (List.getElem?_eq_some_iff.mp line).1, line]

end Sessions

/-- In every run, whatever the chunks and the other threads: the lines received so far are the
commands taken and those still in the buffer, which has none when the reader is at its `read`;
command `c` is line `c` and is run by the handler for it, or refused; and the inner loop never
reads outside its buffers. -/
theorem lines_in_order (setup : Setup) {s : Session}
    (reached : Reachable (sessionStep setup) Session.initial s) :
    (∃ pending, (commands (received s.seen)).1 = s.talk.client.taken ++ pending ∧
      (s.draining = false → pending = [])) ∧
    (∀ c < s.talk.client.count,
      (commands (received s.seen)).1[c]? = some (s.talk.client.cmd c) ∧
      (s.talk.client.func c = dispatch (s.talk.client.cmd c) ∨
        dispatch (s.talk.client.cmd c) = .workHandler ∧ s.talk.client.func c = .custHandler)) ∧
    (s.talk.client.reader = .idle → s.draining = true →
      ∃ next, sessionStep setup s .next = some next) := by
  obtain ⟨talkReached, bytes, buffered⟩ := session_of_reachable reached
  have clientReached := (accounted_of_reachable talkReached).1
  refine ⟨⟨_, buffered.lines, buffered.drained⟩, fun c inCount => ?_, buffered.inner_isSome setup⟩
  exact ⟨line_of_command buffered inCount, dispatched_of_reachable clientReached c inCount⟩

/-! ## What is stored into `raw_seed` -/

/-- Every `raw_seed` has room for what a line of 95 or 98 characters can have `sscanf` store
there. The source's have 64 bytes, one too few for a seed of 64 digits. -/
def Setup.Roomy (setup : Setup) : Prop :=
  ∀ c, 91 ≤ (setup.solnVars c).rawSeed.length ∧ 94 ≤ (setup.workVars c).rawSeed.length

/-- `sscanf` stores nothing behind the `raw_seed` of command `c`. -/
def Setup.StoresInside (setup : Setup) (s : State) (c : Nat) : Prop :=
  (s.func c = .solnHandler →
    ((setup.solnVars c).scan (s.cmd c)).rawSeed.length = (setup.solnVars c).rawSeed.length) ∧
  (s.func c = .workHandler →
    ((setup.workVars c).scan (s.cmd c)).rawSeed.length = (setup.workVars c).rawSeed.length)

theorem storesInside_of_roomy {setup : Setup} (roomy : setup.Roomy) {s : Session}
    (reached : Reachable (sessionStep setup) Session.initial s) :
    ∀ c < s.talk.client.count, setup.StoresInside s.talk.client c := by
  intro c inCount
  obtain ⟨forSoln, forWork⟩ := roomy c
  have clientReached := (accounted_of_reachable (session_of_reachable reached).1).1
  have picked := dispatched_of_reachable clientReached c inCount
  constructor
  · intro isSoln
    have length := ((dispatch_solnHandler_iff _).mp
      ((picked.resolve_right fun refused => by simp [isSoln] at refused).symm.trans isSoln)).1
    apply length_storedSeed [.space, .hex none 64]
    rw [List.length_drop, length]
    omega
  · intro isWork
    have length := ((dispatch_workHandler_iff _).mp
      ((picked.resolve_right fun refused => by simp [isWork] at refused).symm.trans isWork)).1
    apply length_storedSeed [.space, .hex none 64, .space, .hex none 32]
    rw [List.length_drop, length]
    omega

/-! ## A solution sent as bytes -/

/-- The reply to a well-formed command, as a comparison of numbers. -/
theorem solnHandler_fields (sha : List UInt8 → Uint256) (vars : SolnVars) (fields : SolnFields)
    (atLeast : 3 ≤ alphaField fields.difficulty) :
    solnHandler .littleEndian sha vars fields.command =
      if (sha (sha (getX .littleEndian (seedOf fields.seed)
          (UInt64.ofNat fields.solution.number))).bytes).toNat <
          betaField fields.difficulty * 2 ^ (8 * (alphaField fields.difficulty - 3)) % 2 ^ 256
        then okayReply else sendFormatted errorHead notValid := by
  obtain ⟨alpha, beta⟩ := ntohl_field fields.difficulty
  rw [solnHandler_command]
  apply if_congr _ rfl rfl
  rw [isValidSoln_eq_neg_one_iff, toNat_getTarget _ (alpha ▸ atLeast), alpha, beta]

/-- Where line `c` of what was received is a well-formed SOLN command and its thread has ended, one
line has been written for it, that of `soln_handler`. -/
theorem linesOf_soln {setup : Setup} {s : Session}
    (reached : Reachable (sessionStep setup) Session.initial s) {c : Nat} (fields : SolnFields)
    (isLine : (commands (received s.seen)).1[c]? = some fields.command) {via : Via}
    (ended : s.talk.client.pc c = .ended via) :
    linesOf c s.talk.written =
      [solnHandler setup.host setup.sha (setup.solnVars c) fields.command] := by
  obtain ⟨talkReached, bytes, buffered⟩ := session_of_reachable reached
  obtain ⟨clientReached, accounted⟩ := accounted_of_reachable talkReached
  have inCount : c < s.talk.client.count :=
    (clientInv_of_reachable clientReached).reader.lt_count (by rw [ended]; exact nofun)
  have isCommand : s.talk.client.cmd c = fields.command := by
    have line := line_of_command buffered inCount
    rw [isLine, Option.some_inj] at line
    exact line.symm
  have isSoln : s.talk.client.func c = .solnHandler := by
    have picked := dispatched_of_reachable clientReached c inCount
    rw [isCommand, dispatch_soln] at picked
    exact picked.resolve_right fun refused => by cases refused.1
  have noLine : linesOf c s.talk.client.sent = [] := by
    apply linesOf_absent
    rw [(outcomeInv_of_reachable clientReached).answered c, isSoln]
    exact fun both => by cases both.1
  rw [accounted c, noLine, List.nil_append, isSoln, isCommand, ended]
  rfl

/-- In every run on a little-endian host whose `raw_seed`s are roomy enough: `sscanf` stores
nothing behind them, and where line `c` of what was received is a well-formed SOLN command with
an exponent of 3 at least, and its thread has ended, the one line written for it is the verdict
of the proof of work that it claims. -/
theorem soln_line_answered (setup : Setup) (host : setup.host = .littleEndian)
    (roomy : setup.Roomy) {s : Session}
    (reached : Reachable (sessionStep setup) Session.initial s) {c : Nat} (fields : SolnFields)
    (isLine : (commands (received s.seen)).1[c]? = some fields.command)
    (atLeast : 3 ≤ alphaField fields.difficulty) {via : Via}
    (ended : s.talk.client.pc c = .ended via) :
    (∀ d < s.talk.client.count, setup.StoresInside s.talk.client d) ∧
    linesOf c s.talk.written =
      [if (setup.sha (setup.sha (getX .littleEndian (seedOf fields.seed)
          (UInt64.ofNat fields.solution.number))).bytes).toNat <
          betaField fields.difficulty * 2 ^ (8 * (alphaField fields.difficulty - 3)) % 2 ^ 256
        then okayReply else sendFormatted errorHead notValid] := by
  refine ⟨storesInside_of_roomy roomy reached, ?_⟩
  rw [linesOf_soln reached fields isLine ended, host,
    solnHandler_fields setup.sha (setup.solnVars c) fields atLeast]

/-! ## A solution that another client has mined -/

/-- Where line `c` of what was received is a well-formed WORK command that was not refused, a line
written for it is the SOLN command of a solution. -/
theorem linesOf_work {setup : Setup} {s : Session}
    (reached : Reachable (sessionStep setup) Session.initial s) {c : Nat} (fields : WorkFields)
    (isLine : (commands (received s.seen)).1[c]? = some fields.command)
    (admitted : s.talk.client.func c = .workHandler) {line : List UInt8}
    (answered : line ∈ linesOf c s.talk.written) :
    ∃ solution, (setup.jobOf c fields.command).isValidSoln solution = true ∧
      line = (answerFields fields solution).command ++ [13, 10] := by
  obtain ⟨talkReached, bytes, buffered⟩ := session_of_reachable reached
  obtain ⟨clientReached, accounted⟩ := accounted_of_reachable talkReached
  have noReplies : setup.replies c (s.talk.client.cmd c) .workHandler = [] := rfl
  rw [accounted c, admitted, noReplies, List.take_nil, List.append_nil] at answered
  obtain ⟨⟨d, _⟩, kept, rfl⟩ := List.mem_map.mp answered
  obtain ⟨sent, own⟩ := List.mem_filter.mp kept
  obtain rfl : d = c := of_decide_eq_true own
  obtain ⟨inCount, solution, found, isResult⟩ := (answerInv_of_reachable
    (fun c cmd => workJob_isInt setup.host setup.sha (setup.workVars c) cmd) clientReached).sent
    d _ sent
  have isCommand : s.talk.client.cmd d = fields.command := by
    have taken := line_of_command buffered inCount
    rw [isLine, Option.some_inj] at taken
    exact taken.symm
  rw [isCommand] at found isResult
  obtain ⟨_, _, _, _, valid, _⟩ := found
  refine ⟨solution, valid, ?_⟩
  rw [isResult]
  exact workJob_result setup.host setup.sha (setup.workVars d) fields solution

/-- In any two runs on hosts of one byte order whose `raw_seed`s are roomy enough: `sscanf`
stores nothing behind them, and the line that one client has got for a well-formed WORK command
is, as a line that the other client sends, a SOLN command that gets OKAY. -/
theorem mined_line_accepted {miner verifier : Setup} (host : verifier.host = miner.host)
    (sha : verifier.sha = miner.sha) (minerRoomy : miner.Roomy) (verifierRoomy : verifier.Roomy)
    {s s' : Session} (mining : Reachable (sessionStep miner) Session.initial s)
    (verifying : Reachable (sessionStep verifier) Session.initial s')
    {c c' : Nat} (fields : WorkFields)
    (isWork : (commands (received s.seen)).1[c]? = some fields.command)
    (admitted : s.talk.client.func c = .workHandler) {line : List UInt8}
    (answered : line ∈ linesOf c s.talk.written)
    (sentBack : (commands (received s'.seen)).1[c']? = some (body line)) {via : Via}
    (ended : s'.talk.client.pc c' = .ended via) :
    (∀ d < s.talk.client.count, miner.StoresInside s.talk.client d) ∧
    (∀ d < s'.talk.client.count, verifier.StoresInside s'.talk.client d) ∧
    linesOf c' s'.talk.written = [okayReply] := by
  refine ⟨storesInside_of_roomy minerRoomy mining,
    storesInside_of_roomy verifierRoomy verifying, ?_⟩
  obtain ⟨solution, valid, rfl⟩ := linesOf_work mining fields isWork admitted answered
  rw [body_append] at sentBack
  rw [linesOf_soln verifying (answerFields fields solution) sentBack ended, host, sha]
  exact congrArg (fun reply => [reply])
    (answer_okay miner.host miner.sha (miner.workVars c) fields solution (verifier.solnVars c')
      valid)

/-! ## A SOLN command in two reads -/

def solnStart : Chunk := ⟨easyFields.command.take 60, by decide, by decide⟩

def solnEnd : Chunk := ⟨easyFields.command.drop 60 ++ [13, 10], by decide, by decide⟩

/-- The first read makes no command; the one that the second read completes is served. -/
def solnInPieces : List SessionLabel :=
  let served : List Label :=
    List.replicate 3 (.reader .move) ++ .reader (.create true) :: moves 0 2
  [.read solnStart, .next, .read solnEnd, .next] ++ served.map .thread ++ [.next]

theorem lines_in_order_solnInPieces :
    ∃ s, Reachable (sessionStep zeroSetup) Session.initial s ∧ s.draining = false ∧
      (commands (received s.seen)).1 = [easyFields.command] := by
  obtain ⟨s, reached, ended⟩ :=
    exists_reachable_of_run (sessionStep zeroSetup) Session.initial solnInPieces
      (fun s => decide (s.draining = false ∧ s.talk.client.taken = [easyFields.command]))
      (by decide +kernel)
  obtain ⟨atHead, taken⟩ := of_decide_eq_true ended
  obtain ⟨pending, lines, nothing⟩ := (lines_in_order zeroSetup reached).1
  rw [nothing atHead, taken] at lines
  exact ⟨s, reached, atHead, lines⟩

theorem zeroSetup_roomy : zeroSetup.Roomy :=
  fun _ => ⟨Nat.le_refl 91, Nat.le_refl 94⟩

theorem soln_line_answered_solnInPieces :
    ∃ s, Reachable (sessionStep zeroSetup) Session.initial s ∧
      zeroSetup.StoresInside s.talk.client 0 ∧ linesOf 0 s.talk.written = [okayReply] := by
  obtain ⟨s, reached, ended⟩ :=
    exists_reachable_of_run (sessionStep zeroSetup) Session.initial solnInPieces
      (fun s => decide (s.talk.client.count = 1 ∧ s.talk.client.cmd 0 = easyFields.command ∧
        s.talk.client.pc 0 = .ended .popped)) (by decide +kernel)
  obtain ⟨single, isCommand, isOver⟩ := of_decide_eq_true ended
  obtain ⟨_, bytes, buffered⟩ := session_of_reachable reached
  have isLine := line_of_command buffered (c := 0) (by rw [single]; decide)
  rw [isCommand] at isLine
  obtain ⟨inside, answer⟩ :=
    soln_line_answered zeroSetup rfl zeroSetup_roomy reached easyFields isLine (by decide) isOver
  rw [if_pos (by decide +kernel)] at answer
  exact ⟨s, reached, inside 0 (by rw [single]; decide), answer⟩

/-! ## A WORK command and its answer in another session -/

/-- A chunk with one line, the rest of the session left to the threads. -/
def oneLine (chunk : Chunk) (served : List Label) : List SessionLabel :=
  [.read chunk, .next] ++ served.map .thread

def workChunk : Chunk := ⟨lowWork.command ++ [13, 10], by decide, by decide⟩

def minedChunk : Chunk :=
  ⟨(answerFields lowWork 1).command ++ [13, 10], by decide, by decide⟩

theorem mined_line_accepted_lowWork :
    ∃ s s', Reachable (sessionStep zeroSetup) Session.initial s ∧
      Reachable (sessionStep zeroSetup) Session.initial s' ∧
      linesOf 0 s.talk.written = [minedChunk.bytes] ∧ linesOf 0 s'.talk.written = [okayReply] := by
  obtain ⟨s, mining, mined⟩ :=
    exists_reachable_of_run (sessionStep zeroSetup) Session.initial
      (oneLine workChunk
        (List.replicate 4 (.reader .move) ++ .reader (.create true) :: solvedWork 0))
      (fun s => decide (s.talk.client.count = 1 ∧ s.talk.client.cmd 0 = lowWork.command ∧
        s.talk.client.func 0 = .workHandler ∧ linesOf 0 s.talk.written = [minedChunk.bytes]))
      (by decide +kernel)
  obtain ⟨s', verifying, verified⟩ :=
    exists_reachable_of_run (sessionStep zeroSetup) Session.initial
      (oneLine minedChunk
        (List.replicate 3 (.reader .move) ++ .reader (.create true) :: moves 0 2))
      (fun s => decide (s.talk.client.count = 1 ∧
        s.talk.client.cmd 0 = body minedChunk.bytes ∧ s.talk.client.pc 0 = .ended .popped))
      (by decide +kernel)
  obtain ⟨single, isWork, admitted, answer⟩ := of_decide_eq_true mined
  obtain ⟨single', isSoln, ended⟩ := of_decide_eq_true verified
  have lineOf : ∀ {s : Session} (cmd : List UInt8),
      Reachable (sessionStep zeroSetup) Session.initial s → s.talk.client.count = 1 →
        s.talk.client.cmd 0 = cmd → (commands (received s.seen)).1[0]? = some cmd := by
    intro s cmd reached single isCommand
    obtain ⟨_, bytes, buffered⟩ := session_of_reachable reached
    rw [← isCommand]
    exact line_of_command buffered (by rw [single]; decide)
  refine ⟨s, s', mining, verifying, answer, ?_⟩
  exact (mined_line_accepted rfl rfl zeroSetup_roomy zeroSetup_roomy mining verifying lowWork
    (lineOf _ mining single isWork) admitted (by rw [answer]; exact List.mem_singleton_self _)
    (lineOf _ verifying single' isSoln) ended).2.2

end BitcoinServer.Client
