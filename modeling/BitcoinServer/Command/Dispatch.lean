import BitcoinServer.Library.CText

/-!
Contract: which handler `client_handler` picks for a command string.

A command is the C string that `get_command` returned, as its bytes before the
terminator. The comparison looks at the whole string, or at its first four
characters when a blank follows them, and every handler also fixes the length
of the whole line.
-/

namespace BitcoinServer.Command

open CText

/-- The `worker_func` of a command thread. -/
inductive WorkerFunc where
  | pingHandler
  | pongHandler
  | okayHandler
  | erroHandler
  | solnHandler
  | slepHandler
  | abrtHandler
  | workHandler
  | custHandler
  | unknHandler
deriving DecidableEq, Repr

/-- `cmd` after `cmd[4] = '\0'`, which is done only where `cmd[4]` is a blank. -/
def head (cmd : List UInt8) : List UInt8 :=
  if 4 < cmd.length ∧ cmd[4]? = some 32 then cmd.take 4 else cmd

/-- The `strcmp` chain of `client_handler`. A WORK command still has to pass
the test on `global_work_count`. -/
def dispatch (cmd : List UInt8) : WorkerFunc :=
  let origLen := cmd.length
  if head cmd = ascii ['P', 'I', 'N', 'G'] ∧ origLen = 4 then .pingHandler
  else if head cmd = ascii ['P', 'O', 'N', 'G'] ∧ origLen = 4 then .pongHandler
  else if head cmd = ascii ['O', 'K', 'A', 'Y'] ∧ origLen = 4 then .okayHandler
  else if head cmd = ascii ['E', 'R', 'R', 'O'] ∧ origLen = 4 then .erroHandler
  else if head cmd = ascii ['S', 'O', 'L', 'N'] ∧ origLen = 95 then .solnHandler
  else if head cmd = ascii ['S', 'L', 'E', 'P'] ∧ origLen = 4 then .slepHandler
  else if head cmd = ascii ['A', 'B', 'R', 'T'] ∧ origLen = 4 then .abrtHandler
  else if head cmd = ascii ['W', 'O', 'R', 'K'] ∧ origLen = 98 then .workHandler
  else .unknHandler

/-! ## Lines with a blank behind the head -/

/-- The comparison of a longer line with a head of four characters. -/
theorem head_eq_iff (cmd name : List UInt8) (four : name.length = 4) (long : 4 < cmd.length) :
    head cmd = name ↔ cmd.take 5 = name ++ [32] := by
  unfold head
  by_cases blank : cmd[4]? = some 32
  · have fifth : cmd[4] = 32 := by
      rw [List.getElem?_eq_getElem long] at blank
      exact Option.some.inj blank
    rw [if_pos ⟨long, blank⟩, List.take_succ_eq_append_getElem long, fifth,
      List.append_left_inj]
  · rw [if_neg fun holds => blank holds.2]
    constructor
    · rintro rfl
      omega
    · intro start
      have fifth : (cmd.take 5)[4]? = some 32 := by
        rw [start, ← four, List.getElem?_concat_length]
      rw [List.getElem?_take_of_lt (by decide)] at fifth
      exact absurd fifth blank

/-- A longer line is only compared with two heads. -/
theorem dispatch_long {cmd : List UInt8} (long : 4 < cmd.length) : dispatch cmd =
    if cmd.take 5 = ascii ['S', 'O', 'L', 'N', ' '] ∧ cmd.length = 95 then .solnHandler
    else if cmd.take 5 = ascii ['W', 'O', 'R', 'K', ' '] ∧ cmd.length = 98 then .workHandler
    else .unknHandler := by
  have notFour : cmd.length ≠ 4 := Nat.ne_of_gt long
  have soln := head_eq_iff cmd (ascii ['S', 'O', 'L', 'N']) rfl long
  have work := head_eq_iff cmd (ascii ['W', 'O', 'R', 'K']) rfl long
  unfold dispatch
  simp only [notFour, and_false, if_false, soln, work]
  rfl

theorem dispatch_short {cmd : List UInt8} (short : ¬ 4 < cmd.length) :
    dispatch cmd ≠ .solnHandler ∧ dispatch cmd ≠ .workHandler := by
  have notSoln : cmd.length ≠ 95 := by omega
  have notWork : cmd.length ≠ 98 := by omega
  unfold dispatch
  simp only [notSoln, notWork, and_false, if_false]
  split_ifs <;> exact ⟨nofun, nofun⟩

/-- The lines for `work_handler`. -/
theorem dispatch_workHandler_iff (cmd : List UInt8) : dispatch cmd = .workHandler ↔
    cmd.length = 98 ∧ cmd.take 5 = ascii ['W', 'O', 'R', 'K', ' '] := by
  by_cases long : 4 < cmd.length
  · rw [dispatch_long long]
    split_ifs with soln work
    · exact iff_of_false nofun fun shaped => by omega
    · exact iff_of_true rfl ⟨work.2, work.1⟩
    · exact iff_of_false nofun fun shaped => work ⟨shaped.2, shaped.1⟩
  · exact iff_of_false (dispatch_short long).2 fun shaped => by omega

/-- The lines for `soln_handler`. -/
theorem dispatch_solnHandler_iff (cmd : List UInt8) : dispatch cmd = .solnHandler ↔
    cmd.length = 95 ∧ cmd.take 5 = ascii ['S', 'O', 'L', 'N', ' '] := by
  by_cases long : 4 < cmd.length
  · rw [dispatch_long long]
    split_ifs with soln work
    · exact iff_of_true rfl ⟨soln.2, soln.1⟩
    · exact iff_of_false nofun fun shaped => soln ⟨shaped.2, shaped.1⟩
    · exact iff_of_false nofun fun shaped => soln ⟨shaped.2, shaped.1⟩
  · exact iff_of_false (dispatch_short long).1 fun shaped => by omega

end BitcoinServer.Command
