import BitcoinServer.Library.Scanf
import BitcoinServer.Work.Answer

/-!
Contract: which WORK lines give `work_handler` a thread count that it can use.

The line is checked for its length only, and the return value of `sscanf` is not looked at:
a field that is not read leaves `thread_count` as it was on the stack, and one that is read
is any `unsigned int`, taken as an `int`.

Owns the exact set of lines after which the divisor and the sizes of the allocations are
between 1 and 255.
-/

namespace BitcoinServer.Work

open CText BitcoinServer.Command BitcoinServer.Solution

/-- A command string that `client_handler` gives to `work_handler`. -/
structure WorkCommand where
  characters : List UInt8
  noNul : ∀ byte ∈ characters, byte ≠ 0
  dispatched : dispatch characters = .workHandler

/-- `thread_count`, as an `int`. -/
def WorkVars.count (vars : WorkVars) : Int := vars.threadCount.toBitVec.toInt

/-- What the rest of `work_handler` needs of its thread count. -/
structure Usable (threadCount : Int) : Prop where
  atLeast : 1 ≤ threadCount
  atMost : threadCount ≤ 255
  divisor : UInt64.ofInt threadCount ≠ 0

/-! ## The value as an `int` -/

theorem toInt_of_small {value : UInt32} (small : value.toNat < 2 ^ 31) :
    value.toBitVec.toInt = value.toNat :=
  BitVec.toInt_eq_toNat_of_lt (by
    show 2 * value.toNat < 2 ^ 32
    omega)

/-- An `int` between 1 and 255 is that number as an `unsigned int`. -/
theorem usable_iff (value : UInt32) :
    Usable value.toBitVec.toInt ↔ 1 ≤ value.toNat ∧ value.toNat ≤ 255 := by
  have bound := value.toNat_lt
  have signed := BitVec.toInt_eq_toNat_cond value.toBitVec
  rw [UInt32.toNat_toBitVec] at signed
  constructor
  · intro usable
    have atLeast := usable.atLeast
    have atMost := usable.atMost
    rw [signed] at atLeast atMost
    split at atLeast <;> omega
  · rintro ⟨atLeast, atMost⟩
    have small : value.toBitVec.toInt = value.toNat := toInt_of_small (by omega)
    have divisor : (UInt64.ofInt value.toNat).toNat = value.toNat := by
      show ((value.toNat : Int) % 2 ^ 64).toNat % 2 ^ 64 = value.toNat
      omega
    refine ⟨by omega, by omega, ?_⟩
    rw [small]
    intro zero
    rw [zero] at divisor
    exact absurd divisor.symm (Nat.ne_of_gt atLeast)

/-! ## The line -/

/-- The items of a line that reads as the whole format. -/
theorem items_of_reads {input : List UInt8} {items : List Item}
    (reads : Reads workFormat input items) : ∃ difficulty seed n count,
      items = [.number difficulty, .text seed, .number n, .number (count % 2 ^ 32)] := by
  cases reads with
  | hex _ _ reads => cases reads with
  | space _ _ reads => cases reads with
  | text _ _ _ _ reads => cases reads with
  | space _ _ reads => cases reads with
  | hex _ _ reads => cases reads with
  | space _ _ reads => cases reads with
  | hex _ _ reads => cases reads with
  | nil => exact ⟨_, _, _, _, rfl⟩

/-- `thread_count` is stored exactly from the lines that read as the whole format. -/
theorem threadCount_stored (commandStr : List UInt8) (item : Item) :
    (sscanf workFormat (commandStr.drop 5))[3]? = some item ↔
      ∃ items, Reads workFormat (commandStr.drop 5) items ∧ items[3]? = some item := by
  have last := sscanf_last_iff workFormat [] (commandStr.drop 5) (i := 3) rfl (by decide) item
  rwa [List.append_nil] at last

section Scan

variable (vars : WorkVars) (commandStr : List UInt8)

theorem WorkVars.threadCount_scan : (vars.scan commandStr).threadCount = UInt32.ofNat
    (storedNumber (sscanf workFormat (commandStr.drop 5)) 3 vars.threadCount.toNat) := rfl

theorem WorkVars.threadCount_kept {commandStr : List UInt8}
    (notStored : (sscanf workFormat (commandStr.drop 5))[3]? = none) :
    (vars.scan commandStr).threadCount = vars.threadCount := by
  rw [threadCount_scan, storedNumber, notStored]
  exact UInt32.ofNat_toNat

theorem WorkVars.count_read {commandStr : List UInt8} {count : Nat}
    (stored : (sscanf workFormat (commandStr.drop 5))[3]? = some (.number count))
    (fits : count < 2 ^ 32) :
    Usable (vars.scan commandStr).count ↔ 1 ≤ count ∧ count ≤ 255 := by
  have toNat : (UInt32.ofNat count).toNat = count := UInt32.toNat_ofNat_of_lt' fits
  unfold WorkVars.count
  rw [threadCount_scan, storedNumber, stored, usable_iff, toNat]

/-- With a usable thread count the search divides by it and makes that many threads. -/
theorem workJob_threadCount (host : Host) (sha : List UInt8 → Uint256)
    (usable : Usable (vars.scan commandStr).count) :
    ((workJob host sha vars commandStr).threadCount : Int) = (vars.scan commandStr).count := by
  obtain ⟨_, atMost⟩ := (usable_iff _).mp usable
  have small : (vars.scan commandStr).threadCount.toNat < 2 ^ 31 := by omega
  show ((if (vars.scan commandStr).threadCount < 0x80000000 then
    (vars.scan commandStr).threadCount.toNat else 0 : Nat) : Int) = _
  rw [if_pos (UInt32.lt_iff_toNat_lt.mpr small), WorkVars.count, toInt_of_small small]

end Scan

/-- The thread count is usable, whatever the stack held before, exactly where the line reads as
four fields of which the last is between 1 and 255. -/
theorem threadCount_usable_iff (command : WorkCommand) :
    (∀ vars : WorkVars, Usable (vars.scan command.characters).count) ↔
      ∃ difficulty seed n count, Reads workFormat (command.characters.drop 5)
        [.number difficulty, .text seed, .number n, .number count] ∧ 1 ≤ count ∧ count ≤ 255 := by
  constructor
  · intro usable
    -- A variable that is not stored into may hold 0.
    have atZero := usable ⟨0, [], 0, 0, []⟩
    cases stored : (sscanf workFormat (command.characters.drop 5))[3]? with
    | none =>
        unfold WorkVars.count at atZero
        rw [WorkVars.threadCount_kept _ stored] at atZero
        exact absurd atZero.atLeast (by decide)
    | some item =>
        obtain ⟨items, reads, fourth⟩ := (threadCount_stored _ item).mp stored
        obtain ⟨difficulty, seed, n, count, rfl⟩ := items_of_reads reads
        obtain rfl := Option.some.inj fourth
        have range := (WorkVars.count_read _ stored (Nat.mod_lt _ (by decide))).mp atZero
        exact ⟨difficulty, seed, n, count % 2 ^ 32, reads, range⟩
  · rintro ⟨difficulty, seed, n, count, reads, atLeast, atMost⟩ vars
    have stored := (threadCount_stored command.characters (.number count)).mpr ⟨_, reads, rfl⟩
    exact (vars.count_read stored (by omega)).mpr ⟨atLeast, atMost⟩

/-! ## Lines of four fields of fixed width -/

/-- A line with any four fields goes to `work_handler`. -/
def WorkCommand.ofFields (difficulty : HexField 8) (seed : HexField 64) (n : HexField 16)
    (threadCount : HexField 2) : WorkCommand where
  characters := workLine difficulty seed n threadCount
  noNul := by
    have headNoNul : ∀ byte ∈ ascii ['W', 'O', 'R', 'K', ' '], byte ≠ 0 := by decide +kernel
    intro byte member
    simp only [workLine, List.mem_append, List.mem_cons] at member
    rcases member with head | member | rfl | member | rfl | member | rfl | member
    · exact headNoNul byte head
    · exact difficulty.noNul byte member
    · decide
    · exact seed.noNul byte member
    · decide
    · exact n.noNul byte member
    · decide
    · exact threadCount.noNul byte member
  dispatched := (dispatch_workHandler_iff _).mpr ⟨length_workLine _ _ _ _, rfl⟩

/-- Of these lines only those with the thread count 0 go wrong. -/
theorem usable_ofFields (vars : WorkVars) (difficulty : HexField 8) (seed : HexField 64)
    (n : HexField 16) (threadCount : HexField 2) :
    Usable (vars.scan (WorkCommand.ofFields difficulty seed n threadCount).characters).count ↔
      threadCount.number ≠ 0 := by
  have bound : threadCount.number < 256 := threadCount.number_lt
  have toNat : (UInt32.ofNat threadCount.number).toNat = threadCount.number :=
    UInt32.toNat_ofNat_of_lt' (by
      show threadCount.number < 2 ^ 32
      omega)
  unfold WorkVars.count
  rw [show (WorkCommand.ofFields difficulty seed n threadCount).characters =
    workLine difficulty seed n threadCount from rfl, vars.scan_workLine, usable_iff, toNat]
  omega

/-- A line of the right length with the thread count `00`: the division by it follows. -/
theorem threadCount_zero_line : ¬ ∀ command : WorkCommand, ∀ vars : WorkVars,
    Usable (vars.scan command.characters).count := by
  intro always
  have usable := always (.ofFields (.printed 8 0x1fffffff) (.printed 64 0) (.printed 16 0)
    (.printed 2 0)) ⟨0, [], 0, 0, []⟩
  exact (usable_ofFields _ _ _ _ _).mp usable rfl

end BitcoinServer.Work
