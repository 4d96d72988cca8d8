import BitcoinServer.Client.Step
import BitcoinServer.Command.Handlers
import BitcoinServer.Work.Answer

/-!
Contract: the command lines that `soln_handler` and `work_handler` act on.

`handled` is what the handler of a command does when nothing cancels it. The local
variables of the handlers hold any old values before their `sscanf`, whose return
value neither of them reads.

Owns the exact set of command strings on which the dispatcher and the scanner
together follow the grammar: all but the lines with the keyword, the blank and the
length of a SOLN or WORK command whose fields are not the ones of the grammar.
-/

namespace BitcoinServer.Client

open CText BitcoinServer.Command BitcoinServer.Solution BitcoinServer.Work

/-! ## What a handler does -/

/-- The handler that `client_handler` starts for a command string. -/
def chosen (globalWorkCount : Int) (cmd : List UInt8) : WorkerFunc :=
  match dispatch cmd with
  | .workHandler => if globalWorkCount < globalWorkLimit then .workHandler else .custHandler
  | func => func

/-- `soln_handler` and `work_handler` at `get_target`, with the values they go on with;
the messages of the other handlers; `abrt_handler`, which sends none. -/
inductive Handled where
  | verify (difficulty : UInt32) (seed : Uint256) (solution : UInt64)
  | search (difficulty : UInt32) (seed : Uint256) (n : UInt64) (threadCount : UInt32)
  | send (messages : List (List UInt8))
  | abort

def Handled.verifies : Handled → Bool
  | .verify .. => true
  | _ => false

def Handled.searches : Handled → Bool
  | .search .. => true
  | _ => false

/-- The handler of a command string, up to the target where it has one. -/
def handled (globalWorkCount : Int) (solnVars : SolnVars) (workVars : WorkVars)
    (cmd : List UInt8) : Handled :=
  match chosen globalWorkCount cmd with
  | .pingHandler => .send pingHandler
  | .pongHandler => .send pongHandler
  | .okayHandler => .send okayHandler
  | .erroHandler => .send erroHandler
  | .slepHandler => .send slepHandler
  | .abrtHandler => .abort
  | .custHandler => .send (custHandler errorHead fullOfWork)
  | .unknHandler => .send unknHandler
  | .solnHandler =>
      let scanned := solnVars.scan cmd
      .verify scanned.difficulty (seedFromRaw scanned.rawSeed) scanned.solution
  | .workHandler =>
      let scanned := workVars.scan cmd
      .search scanned.difficulty (seedFromRaw scanned.rawSeed) scanned.n scanned.threadCount

/-- The choice is the one that the reader makes between `dispatch` and `create`. -/
theorem choose_func (s : State) (c : Nat) (dispatched : s.func c = dispatch (s.cmd c)) :
    (s.choose c).func c = chosen s.globalWorkCount (s.cmd c) := by
  unfold State.choose chosen
  rw [← dispatched]
  by_cases isWork : s.func c = .workHandler
  · rw [if_pos isWork, isWork]
    by_cases room : s.globalWorkCount < globalWorkLimit
    · rw [if_pos room, if_pos room]
      exact isWork
    · rw [if_neg room, if_neg room]
      exact Function.update_self c _ s.func
  · rw [if_neg isWork]
    split
    next work => exact absurd work isWork
    next => rfl

/-! ## The grammar -/

/-- For each width a blank and that many hexadecimal digits, and nothing behind them. -/
def IsFields : List Nat → List UInt8 → Prop
  | [], text => text = []
  | n :: widths, text =>
      text.head? = some 32 ∧ (text.tail.take n).length = n ∧
        (∀ byte ∈ text.tail.take n, IsHex byte) ∧ IsFields widths (text.tail.drop n)

instance decidableIsFields : (widths : List Nat) → (text : List UInt8) →
    Decidable (IsFields widths text)
  | [], text => inferInstanceAs (Decidable (text = []))
  | n :: widths, text =>
      haveI := decidableIsFields widths (text.tail.drop n)
      inferInstanceAs (Decidable (_ ∧ _ ∧ _ ∧ _))

/-- `SOLN` with 8, 64 and 16 hexadecimal digits. -/
def IsSoln (cmd : List UInt8) : Prop :=
  cmd.take 4 = ascii ['S', 'O', 'L', 'N'] ∧ IsFields [8, 64, 16] (cmd.drop 4)

/-- `WORK` with 8, 64, 16 and 2 hexadecimal digits. -/
def IsWork (cmd : List UInt8) : Prop :=
  cmd.take 4 = ascii ['W', 'O', 'R', 'K'] ∧ IsFields [8, 64, 16, 2] (cmd.drop 4)

/-- The keyword, the blank and the length of a SOLN command. -/
def SolnShaped (cmd : List UInt8) : Prop :=
  cmd.take 5 = ascii ['S', 'O', 'L', 'N', ' '] ∧ cmd.length = 95

/-- The keyword, the blank and the length of a WORK command. -/
def WorkShaped (cmd : List UInt8) : Prop :=
  cmd.take 5 = ascii ['W', 'O', 'R', 'K', ' '] ∧ cmd.length = 98

instance (cmd : List UInt8) : Decidable (IsSoln cmd) := inferInstanceAs (Decidable (_ ∧ _))

instance (cmd : List UInt8) : Decidable (IsWork cmd) := inferInstanceAs (Decidable (_ ∧ _))

theorem isFields_cons_iff (n : Nat) (widths : List Nat) (text : List UInt8) :
    IsFields (n :: widths) text ↔
      ∃ field : HexField n, ∃ rest, text = 32 :: (field.digits ++ rest) ∧
        IsFields widths rest := by
  constructor
  · intro isFields
    obtain ⟨blank, length, allHex, behind⟩ := isFields
    have split : text = 32 :: text.tail := (List.cons_head?_tail blank).symm
    have parts : text.tail = text.tail.take n ++ text.tail.drop n :=
      (List.take_append_drop n text.tail).symm
    exact ⟨⟨text.tail.take n, length, allHex⟩, text.tail.drop n, by rw [← parts]; exact split,
      behind⟩
  · intro spelled
    obtain ⟨field, rest, rfl, behind⟩ := spelled
    have taken : (field.digits ++ rest).take n = field.digits :=
      List.take_left' field.length_eq
    have dropped : (field.digits ++ rest).drop n = rest := List.drop_left' field.length_eq
    refine ⟨rfl, ?_, ?_, ?_⟩
    · rw [List.tail_cons, taken, field.length_eq]
    · rw [List.tail_cons, taken]
      exact field.isHex
    · rw [List.tail_cons, dropped]
      exact behind

theorem isSoln_iff (cmd : List UInt8) : IsSoln cmd ↔ ∃ fields : SolnFields,
    cmd = fields.command := by
  constructor
  · intro isSoln
    obtain ⟨keyword, isFields⟩ := isSoln
    obtain ⟨difficulty, _, first, atSeed⟩ := (isFields_cons_iff _ _ _).mp isFields
    obtain ⟨seed, _, rfl, atSolution⟩ := (isFields_cons_iff _ _ _).mp atSeed
    obtain ⟨solution, _, rfl, rfl⟩ := (isFields_cons_iff _ _ _).mp atSolution
    refine ⟨⟨difficulty, seed, solution⟩, ?_⟩
    rw [← List.take_append_drop 4 cmd, keyword, first, List.append_nil]
    rfl
  · intro spelled
    obtain ⟨fields, rfl⟩ := spelled
    refine ⟨rfl, ?_⟩
    apply (isFields_cons_iff _ _ _).mpr
    refine ⟨fields.difficulty, _, rfl, (isFields_cons_iff _ _ _).mpr ?_⟩
    refine ⟨fields.seed, _, rfl, (isFields_cons_iff _ _ _).mpr ?_⟩
    exact ⟨fields.solution, [], by rw [List.append_nil], rfl⟩

theorem isWork_iff (cmd : List UInt8) : IsWork cmd ↔
    ∃ difficulty seed n threadCount, cmd = workLine difficulty seed n threadCount := by
  constructor
  · intro isWork
    obtain ⟨keyword, isFields⟩ := isWork
    obtain ⟨difficulty, _, first, atSeed⟩ := (isFields_cons_iff _ _ _).mp isFields
    obtain ⟨seed, _, rfl, atStart⟩ := (isFields_cons_iff _ _ _).mp atSeed
    obtain ⟨n, _, rfl, atCount⟩ := (isFields_cons_iff _ _ _).mp atStart
    obtain ⟨threadCount, _, rfl, rfl⟩ := (isFields_cons_iff _ _ _).mp atCount
    refine ⟨difficulty, seed, n, threadCount, ?_⟩
    rw [← List.take_append_drop 4 cmd, keyword, first, List.append_nil]
    rfl
  · intro spelled
    obtain ⟨difficulty, seed, n, threadCount, rfl⟩ := spelled
    refine ⟨rfl, ?_⟩
    apply (isFields_cons_iff _ _ _).mpr
    refine ⟨difficulty, _, rfl, (isFields_cons_iff _ _ _).mpr ?_⟩
    refine ⟨seed, _, rfl, (isFields_cons_iff _ _ _).mpr ?_⟩
    refine ⟨n, _, rfl, (isFields_cons_iff _ _ _).mpr ?_⟩
    exact ⟨threadCount, [], by rw [List.append_nil], rfl⟩

/-! ## The dispatcher -/

/-- Cutting the string at its blank leaves the first four characters. -/
theorem take_head (cmd : List UInt8) : (head cmd).take 4 = cmd.take 4 := by
  unfold head
  split
  next => rw [List.take_take, Nat.min_self]
  next => rfl

/-- A string that starts with one of the two words goes to its handler or to
`unkn_handler`. -/
theorem dispatch_of_starts {cmd : List UInt8} (starts : cmd.take 4 = ascii ['S', 'O', 'L', 'N'] ∨
      cmd.take 4 = ascii ['W', 'O', 'R', 'K']) :
    dispatch cmd = .solnHandler ∨ dispatch cmd = .workHandler ∨ dispatch cmd = .unknHandler := by
  have distinct : ∀ keyword ∈ [ascii ['P', 'I', 'N', 'G'], ascii ['P', 'O', 'N', 'G'],
      ascii ['O', 'K', 'A', 'Y'], ascii ['E', 'R', 'R', 'O'], ascii ['S', 'L', 'E', 'P'],
      ascii ['A', 'B', 'R', 'T']], ¬ (keyword.take 4 = ascii ['S', 'O', 'L', 'N'] ∨
        keyword.take 4 = ascii ['W', 'O', 'R', 'K']) := by decide
  rw [← take_head] at starts
  have noOther := fun member => distinct (head cmd) member starts
  simp only [List.mem_cons, List.not_mem_nil, or_false, imp_false, not_or] at noOther
  unfold dispatch
  grind

theorem chosen_eq_soln_iff (globalWorkCount : Int) (cmd : List UInt8) :
    chosen globalWorkCount cmd = .solnHandler ↔ SolnShaped cmd := by
  rw [SolnShaped, and_comm, ← dispatch_solnHandler_iff]
  unfold chosen
  grind

theorem chosen_eq_work_iff (globalWorkCount : Int) (cmd : List UInt8) :
    chosen globalWorkCount cmd = .workHandler ↔
      WorkShaped cmd ∧ globalWorkCount < globalWorkLimit := by
  rw [WorkShaped, and_comm (a := cmd.take 5 = _), ← dispatch_workHandler_iff]
  unfold chosen
  grind

theorem IsSoln.shape {cmd : List UInt8} (isSoln : IsSoln cmd) : SolnShaped cmd := by
  obtain ⟨fields, rfl⟩ := (isSoln_iff cmd).mp isSoln
  exact ⟨rfl, fields.length_command⟩

theorem IsWork.shape {cmd : List UInt8} (isWork : IsWork cmd) : WorkShaped cmd := by
  obtain ⟨difficulty, seed, n, threadCount, rfl⟩ := (isWork_iff cmd).mp isWork
  exact ⟨rfl, length_workLine difficulty seed n threadCount⟩

/-! ## What is accepted -/

section Accepted

variable (globalWorkCount : Int) (solnVars : SolnVars) (workVars : WorkVars) (cmd : List UInt8)

theorem handled_verifies_iff :
    (handled globalWorkCount solnVars workVars cmd).verifies = true ↔ SolnShaped cmd := by
  rw [← chosen_eq_soln_iff globalWorkCount]
  unfold handled
  split <;> simp_all [Handled.verifies]

theorem handled_searches_iff : (handled globalWorkCount solnVars workVars cmd).searches = true ↔
    WorkShaped cmd ∧ globalWorkCount < globalWorkLimit := by
  rw [← chosen_eq_work_iff]
  unfold handled
  split <;> simp_all [Handled.searches]

/-- The verdict is about the values of `verify`. -/
theorem solnHandler_of_verify (host : Host) (sha : List UInt8 → Uint256) {difficulty : UInt32}
    {seed : Uint256} {solution : UInt64}
    (verified : handled globalWorkCount solnVars workVars cmd =
      .verify difficulty seed solution) :
    solnHandler host sha solnVars cmd =
      if isValidSoln sha host (getTarget (ntohl host difficulty)) seed solution = -1 then okayReply
      else sendFormatted errorHead notValid := by
  unfold handled at verified
  cases func : chosen globalWorkCount cmd with
  | solnHandler =>
      rw [func] at verified
      injection verified with sameDifficulty sameSeed sameSolution
      rw [← sameDifficulty, ← sameSeed, ← sameSolution]
      rfl
  | _ =>
      rw [func] at verified
      contradiction

/-- The job is about the values of `search`. -/
theorem workJob_of_search (host : Host) (sha : List UInt8 → Uint256) {difficulty : UInt32}
    {seed : Uint256} {n : UInt64} {threadCount : UInt32}
    (searched : handled globalWorkCount solnVars workVars cmd =
      .search difficulty seed n threadCount) :
    (workJob host sha workVars cmd).n = n ∧
      (workJob host sha workVars cmd).threadCount =
        (if threadCount < 0x80000000 then threadCount.toNat else 0) ∧
      (workJob host sha workVars cmd).isValidSoln = fun trying =>
        decide (isValidSoln sha host (getTarget (ntohl host difficulty)) seed trying = -1) := by
  unfold handled at searched
  cases func : chosen globalWorkCount cmd with
  | workHandler =>
      rw [func] at searched
      injection searched with sameDifficulty sameSeed sameStart sameCount
      rw [← sameDifficulty, ← sameSeed, ← sameStart, ← sameCount]
      exact ⟨rfl, rfl, rfl⟩
  | _ =>
      rw [func] at searched
      contradiction

/-- The old values of the handlers' variables do not show: every value that is used is
one that `sscanf` stored. -/
def Converted : Prop :=
  ∀ solnVars workVars otherSolnVars otherWorkVars,
    handled globalWorkCount solnVars workVars cmd =
      handled globalWorkCount otherSolnVars otherWorkVars cmd

/-- The command is treated as the grammar says. -/
structure ReadsGrammar : Prop where
  soln : ∀ solnVars workVars,
    (handled globalWorkCount solnVars workVars cmd).verifies = true ↔ IsSoln cmd
  work : ∀ solnVars workVars,
    (handled globalWorkCount solnVars workVars cmd).searches = true ↔
      IsWork cmd ∧ globalWorkCount < globalWorkLimit
  error : cmd.take 4 = ascii ['S', 'O', 'L', 'N'] ∨ cmd.take 4 = ascii ['W', 'O', 'R', 'K'] →
    ¬ IsSoln cmd → ¬ (IsWork cmd ∧ globalWorkCount < globalWorkLimit) →
      ∀ solnVars workVars, ∃ message,
        handled globalWorkCount solnVars workVars cmd = .send [sendFormatted errorHead message]
  converted : Converted globalWorkCount cmd

/-- The shape of a SOLN command, or of a WORK command that the limit lets pass, without its
fields. -/
def Malformed : Prop :=
  (SolnShaped cmd ∧ ¬ IsSoln cmd) ∨
    (WorkShaped cmd ∧ ¬ IsWork cmd ∧ globalWorkCount < globalWorkLimit)

/-- A well-formed SOLN command overwrites every variable. -/
theorem IsSoln.scan_eq {cmd : List UInt8} (isSoln : IsSoln cmd) (vars other : SolnVars) :
    (vars.scan cmd).difficulty = (other.scan cmd).difficulty ∧
      seedFromRaw (vars.scan cmd).rawSeed = seedFromRaw (other.scan cmd).rawSeed ∧
      (vars.scan cmd).solution = (other.scan cmd).solution := by
  obtain ⟨fields, rfl⟩ := (isSoln_iff cmd).mp isSoln
  rw [vars.scan_command, other.scan_command]
  exact ⟨rfl, by rw [seedFromRaw_digits, seedFromRaw_digits], rfl⟩

/-- A well-formed WORK command overwrites every variable. -/
theorem IsWork.scan_eq {cmd : List UInt8} (isWork : IsWork cmd) (vars other : WorkVars) :
    (vars.scan cmd).difficulty = (other.scan cmd).difficulty ∧
      seedFromRaw (vars.scan cmd).rawSeed = seedFromRaw (other.scan cmd).rawSeed ∧
      (vars.scan cmd).n = (other.scan cmd).n ∧
      (vars.scan cmd).threadCount = (other.scan cmd).threadCount := by
  obtain ⟨difficulty, seed, n, threadCount, rfl⟩ := (isWork_iff cmd).mp isWork
  rw [vars.scan_workLine, other.scan_workLine]
  exact ⟨rfl, by rw [seedFromRaw_digits, seedFromRaw_digits], rfl, rfl⟩

variable {globalWorkCount cmd}

theorem converted_of_not_malformed (wellFormed : ¬ Malformed globalWorkCount cmd) :
    Converted globalWorkCount cmd := by
  intro solnVars workVars otherSolnVars otherWorkVars
  unfold handled
  cases func : chosen globalWorkCount cmd with
  | solnHandler =>
      have shape := (chosen_eq_soln_iff _ _).mp func
      have grammar : IsSoln cmd := by
        by_contra malformed
        exact wellFormed (Or.inl ⟨shape, malformed⟩)
      obtain ⟨difficulty, seed, solution⟩ := grammar.scan_eq solnVars otherSolnVars
      simp only [difficulty, seed, solution]
  | workHandler =>
      obtain ⟨shape, room⟩ := (chosen_eq_work_iff _ _).mp func
      have grammar : IsWork cmd := by
        by_contra malformed
        exact wellFormed (Or.inr ⟨shape, malformed, room⟩)
      obtain ⟨difficulty, seed, n, threadCount⟩ := grammar.scan_eq workVars otherWorkVars
      simp only [difficulty, seed, n, threadCount]
  | _ => rfl

/-- A line that starts with one of the words and that neither handler gets is answered
with `ERRO`. -/
theorem handled_of_refused
    (starts : cmd.take 4 = ascii ['S', 'O', 'L', 'N'] ∨
      cmd.take 4 = ascii ['W', 'O', 'R', 'K'])
    (noSoln : (handled globalWorkCount solnVars workVars cmd).verifies = false)
    (noWork : (handled globalWorkCount solnVars workVars cmd).searches = false) :
    ∃ message,
      handled globalWorkCount solnVars workVars cmd = .send [sendFormatted errorHead message] := by
  have func := dispatch_of_starts starts
  revert noSoln noWork
  unfold handled chosen
  rcases func with isSoln | isWork | isUnkn
  · rw [isSoln]
    intro noSoln
    exact Bool.noConfusion noSoln
  · rw [isWork]
    by_cases room : globalWorkCount < globalWorkLimit
    · simp only [room, if_true]
      intro _ noWork
      exact Bool.noConfusion noWork
    · simp only [room, if_false]
      exact fun _ _ => ⟨fullOfWork, rfl⟩
  · rw [isUnkn]
    exact fun _ _ => ⟨_, rfl⟩

end Accepted

/-- The dispatcher and the scanner follow the grammar on every line but the malformed
ones of the right length. -/
theorem readsGrammar_iff (globalWorkCount : Int) (cmd : List UInt8) :
    ReadsGrammar globalWorkCount cmd ↔ ¬ Malformed globalWorkCount cmd := by
  constructor
  · intro reads malformed
    rcases malformed with ⟨shape, noSoln⟩ | ⟨shape, noWork, room⟩
    · apply noSoln
      exact (reads.soln ⟨0, [], 0⟩ ⟨0, [], 0, 0, []⟩).mp ((handled_verifies_iff _ _ _ _).mpr shape)
    · apply noWork
      exact ((reads.work ⟨0, [], 0⟩ ⟨0, [], 0, 0, []⟩).mp
        ((handled_searches_iff _ _ _ _).mpr ⟨shape, room⟩)).1
  · intro wellFormed
    have soln : ∀ solnVars workVars,
        (handled globalWorkCount solnVars workVars cmd).verifies = true ↔ IsSoln cmd := by
      intro solnVars workVars
      rw [handled_verifies_iff]
      constructor
      · intro shape
        by_contra malformed
        exact wellFormed (Or.inl ⟨shape, malformed⟩)
      · exact IsSoln.shape
    have work : ∀ solnVars workVars,
        (handled globalWorkCount solnVars workVars cmd).searches = true ↔
          IsWork cmd ∧ globalWorkCount < globalWorkLimit := by
      intro solnVars workVars
      rw [handled_searches_iff]
      constructor
      · intro passed
        refine ⟨?_, passed.2⟩
        by_contra malformed
        exact wellFormed (Or.inr ⟨passed.1, malformed, passed.2⟩)
      · exact fun isWork => ⟨isWork.1.shape, isWork.2⟩
    refine ⟨soln, work, ?_, converted_of_not_malformed wellFormed⟩
    intro starts noSoln noWork solnVars workVars
    apply handled_of_refused solnVars workVars starts
    · exact Bool.eq_false_iff.mpr fun verifies => noSoln ((soln _ _).mp verifies)
    · exact Bool.eq_false_iff.mpr fun searches => noWork ((work _ _).mp searches)

/-- `SOLN`, a blank and 90 times the letter `z`. -/
def blankSoln : List UInt8 := ascii ['S', 'O', 'L', 'N', ' '] ++ List.replicate 90 122

/-- `soln_handler` verifies whatever its variables hold. -/
theorem blankSoln_unread :
    ¬ ReadsGrammar 0 blankSoln ∧ ∀ solnVars workVars,
      handled 0 solnVars workVars blankSoln =
        .verify solnVars.difficulty (seedFromRaw solnVars.rawSeed) solnVars.solution := by
  constructor
  · intro reads
    have isSoln := (reads.soln ⟨0, [], 0⟩ ⟨0, [], 0, 0, []⟩).mp rfl
    revert isSoln
    decide +kernel
  · intro solnVars workVars
    have nothing : sscanf solnFormat (blankSoln.drop 5) = [] := by decide +kernel
    show Handled.verify (solnVars.scan blankSoln).difficulty
      (seedFromRaw (solnVars.scan blankSoln).rawSeed) (solnVars.scan blankSoln).solution = _
    unfold SolnVars.scan
    rw [nothing]
    simp only [storedNumber, storedText, List.getElem?_nil, UInt32.ofNat_toNat,
      UInt64.ofNat_toNat]

end BitcoinServer.Client
