import BitcoinServer.Command.Dispatch
import BitcoinServer.Command.Framing
import BitcoinServer.Solution.Verify
import BitcoinServer.Work.SearchInvariant

/-!
Contract: what `work_handler` makes of its command, and the line it answers with.

`workJob` is the job of a command string. The local variables that `sscanf` stores
into, and the `malloc`ed `result`, hold any old values before.

Owns the round trip of an answer: read as a command, the line for a valid solution
is a SOLN command of 95 characters, and the verdict on it is `OKAY`.
-/

namespace BitcoinServer.Work

open CText BitcoinServer.Command BitcoinServer.Solution

/-! ## The source's functions -/

/-- What `sscanf` in `work_handler` stores into, and `result` before `sprintf`. The
bits of `thread_count` are those of an `int`. -/
structure WorkVars where
  difficulty : UInt32
  rawSeed : List UInt8
  n : UInt64
  threadCount : UInt32
  result : List UInt8

/-- `"%x %s %lx %x"`. -/
def workFormat : List Directive :=
  [.hex none 32, .space, .text, .space, .hex none 64, .space, .hex none 32]

/-- `sscanf(command_str + 5, "%x %s %lx %x", &difficulty, raw_seed, &n, &thread_count)`. -/
def WorkVars.scan (vars : WorkVars) (commandStr : List UInt8) : WorkVars :=
  let items := sscanf workFormat (commandStr.drop 5)
  { difficulty := UInt32.ofNat (storedNumber items 0 vars.difficulty.toNat)
    rawSeed := storedText items 1 vars.rawSeed
    n := UInt64.ofNat (storedNumber items 2 vars.n.toNat)
    threadCount := UInt32.ofNat (storedNumber items 3 vars.threadCount.toNat)
    result := vars.result }

/-- `sprintf(result, "SOLN %08x %s %016lx\r\n", difficulty, print_seed, solution)`, with
the swapped `difficulty` and `print_seed` as `work_handler` sets them up. -/
def resultText (host : Host) (difficulty : UInt32) (rawSeed : List UInt8) (solution : UInt64) :
    List UInt8 :=
  let printSeed := rawSeed.take 64 ++ [0]
  ascii ['S', 'O', 'L', 'N', ' '] ++ (printHex 8 (ntohl host difficulty).toNat ++
    32 :: (cString printSeed ++ 32 :: (printHex 16 solution.toNat ++ ascii ['\r', '\n'])))

/-- `work_handler` after its `sscanf`. A negative thread count ends the process, as 0
does. -/
def workJob (host : Host) (sha : List UInt8 → Uint256) (vars : WorkVars)
    (commandStr : List UInt8) : Job :=
  let scanned := vars.scan commandStr
  let difficulty := ntohl host scanned.difficulty
  let target := getTarget difficulty
  let seed := seedFromRaw scanned.rawSeed
  { n := scanned.n
    threadCount := if scanned.threadCount < 0x80000000 then scanned.threadCount.toNat else 0
    isValidSoln := fun trying => isValidSoln sha host target seed trying = -1
    result := fun solution =>
      let text := resultText host difficulty scanned.rawSeed solution
      (text ++ 0 :: scanned.result.drop (text.length + 1)).take 97 }

theorem workJob_isInt (host : Host) (sha : List UInt8 → Uint256) (vars : WorkVars)
    (commandStr : List UInt8) : (workJob host sha vars commandStr).threadCount < 2 ^ 31 := by
  show (if (vars.scan commandStr).threadCount < 0x80000000 then
    (vars.scan commandStr).threadCount.toNat else 0) < 2 ^ 31
  split
  next isInt => exact UInt32.lt_iff_toNat_lt.mp isInt
  next => decide

/-! ## Well-formed commands -/

/-- The fields of a well-formed WORK command. -/
structure WorkFields where
  difficulty : HexField 8
  seed : HexField 64
  n : HexField 16
  threadCount : HexField 2
  positive : 0 < threadCount.number

/-- `WORK`, the difficulty, the seed, the start nonce and the thread count, separated by
blanks. -/
def WorkFields.command (fields : WorkFields) : List UInt8 :=
  ascii ['W', 'O', 'R', 'K', ' '] ++ (fields.difficulty.digits ++ 32 :: (fields.seed.digits ++
    32 :: (fields.n.digits ++ 32 :: fields.threadCount.digits)))

/-- A WORK line with any four fields. -/
def workLine (difficulty : HexField 8) (seed : HexField 64) (n : HexField 16)
    (threadCount : HexField 2) : List UInt8 :=
  ascii ['W', 'O', 'R', 'K', ' '] ++ (difficulty.digits ++ 32 :: (seed.digits ++
    32 :: (n.digits ++ 32 :: threadCount.digits)))

theorem length_workLine (difficulty : HexField 8) (seed : HexField 64) (n : HexField 16)
    (threadCount : HexField 2) : (workLine difficulty seed n threadCount).length = 98 := by
  unfold workLine
  rw [List.length_append, List.length_append, List.length_cons, List.length_append,
    List.length_cons, List.length_append, List.length_cons, difficulty.length_eq,
    seed.length_eq, n.length_eq, threadCount.length_eq]
  rfl

/-- `sscanf` finds the four fields. -/
theorem WorkVars.scan_workLine (vars : WorkVars) (difficulty : HexField 8)
    (seed : HexField 64) (n : HexField 16) (threadCount : HexField 2) :
    vars.scan (workLine difficulty seed n threadCount) =
      { difficulty := UInt32.ofNat difficulty.number
        rawSeed := seed.digits ++ 0 :: vars.rawSeed.drop 65
        n := UInt64.ofNat n.number
        threadCount := UInt32.ofNat threadCount.number
        result := vars.result } := by
  have items : sscanf workFormat (difficulty.digits ++ 32 :: (seed.digits ++
      32 :: (n.digits ++ 32 :: (threadCount.digits ++ [])))) =
      [.number difficulty.number, .text seed.digits, .number n.number,
        .number threadCount.number] := by
    rw [workFormat,
      difficulty.sscanf_hex_digits (by decide) (by decide) (by decide) _ _ (head_blank _),
      seed.sscanf_space_digits (by decide),
      seed.sscanf_text_digits (by decide) _ _ (head_blank _),
      n.sscanf_space_digits (by decide),
      n.sscanf_hex_digits (by decide) (by decide) (by decide) _ _ (head_blank _),
      threadCount.sscanf_space_digits (by decide),
      threadCount.sscanf_hex_digits (by decide) (by decide) (by decide) _ _ (by simp)]
    rfl
  rw [List.append_nil] at items
  have behind : (workLine difficulty seed n threadCount).drop 5 = difficulty.digits ++ 32 ::
      (seed.digits ++ 32 :: (n.digits ++ 32 :: threadCount.digits)) := rfl
  unfold WorkVars.scan
  simp only [behind, items, storedNumber, storedText, List.getElem?_cons_zero,
    List.getElem?_cons_succ, seed.length_eq]

theorem WorkVars.scan_command (vars : WorkVars) (fields : WorkFields) :
    vars.scan fields.command =
      { difficulty := UInt32.ofNat fields.difficulty.number
        rawSeed := fields.seed.digits ++ 0 :: vars.rawSeed.drop 65
        n := UInt64.ofNat fields.n.number
        threadCount := UInt32.ofNat fields.threadCount.number
        result := vars.result } :=
  vars.scan_workLine fields.difficulty fields.seed fields.n fields.threadCount

/-! ## The answer -/

/-- The fields of the answer to a WORK command. -/
def answerFields (fields : WorkFields) (solution : UInt64) : SolnFields where
  difficulty := .printed 8 fields.difficulty.number
  seed := fields.seed
  solution := .printed 16 solution.toNat

/-- `client_handler` picks `soln_handler` for a well-formed SOLN command. -/
theorem dispatch_soln (fields : SolnFields) : dispatch fields.command = .solnHandler :=
  (dispatch_solnHandler_iff _).mpr ⟨fields.length_command, rfl⟩

section Answer

variable (host : Host) (sha : List UInt8 → Uint256) (vars : WorkVars) (fields : WorkFields)
  (solution : UInt64)

theorem toNat_difficulty :
    (UInt32.ofNat fields.difficulty.number).toNat = fields.difficulty.number :=
  UInt32.toNat_ofNat_of_lt' fields.difficulty.number_lt

/-- The line is the command of the answer and CR LF. -/
theorem workJob_result :
    (workJob host sha vars fields.command).result solution =
      (answerFields fields solution).command ++ [13, 10] := by
  have seed : cString ((fields.seed.digits ++ 0 :: vars.rawSeed.drop 65).take 64 ++ [0]) =
      fields.seed.digits := by
    rw [List.take_left' fields.seed.length_eq]
    exact cString_append_nul fields.seed.noNul []
  have text : resultText host (ntohl host (UInt32.ofNat fields.difficulty.number))
      (fields.seed.digits ++ 0 :: vars.rawSeed.drop 65) solution =
        (answerFields fields solution).command ++ [13, 10] := by
    unfold resultText SolnFields.command
    simp only [ntohl_ntohl, toNat_difficulty, seed, List.append_assoc, List.cons_append]
    rfl
  have length : ((answerFields fields solution).command ++ [13, 10]).length = 97 := by
    rw [List.length_append, SolnFields.length_command]
    rfl
  unfold workJob
  simp only [vars.scan_command fields, text]
  exact List.take_left' length

/-- The verifier decides on the answer as the search did. -/
theorem answer_okay (solnVars : SolnVars)
    (valid : (workJob host sha vars fields.command).isValidSoln solution = true) :
    solnHandler host sha solnVars (answerFields fields solution).command = okayReply := by
  have checked : isValidSoln sha host
      (getTarget (ntohl host (UInt32.ofNat fields.difficulty.number))) (seedOf fields.seed)
      solution = -1 := by
    unfold workJob at valid
    simpa only [vars.scan_command fields, seedFromRaw_digits, decide_eq_true_eq] using valid
  have difficulty : (answerFields fields solution).difficulty.number =
      fields.difficulty.number := HexField.printed_number fields.difficulty.number_lt
  have printed : UInt64.ofNat (answerFields fields solution).solution.number = solution := by
    show UInt64.ofNat (HexField.printed 16 solution.toNat).number = solution
    rw [HexField.printed_number solution.toNat_lt, UInt64.ofNat_toNat]
  rw [solnHandler_command, difficulty, printed]
  exact if_pos checked

end Answer

end BitcoinServer.Work
