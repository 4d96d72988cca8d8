import BitcoinServer.Library.Transition
import Mathlib.Algebra.Group.Nat.Defs
import Mathlib.Data.List.Basic
import Mathlib.Tactic.Common

/-!
Contract: the nonce search of one WORK command.

`work_handler` cuts the nonces from its start `n` up to `UINT64_MAX` into one
range for each of its `thread_count` batches and creates a `work_btch` thread
for each. The batches share one `solution` cell, whose value `0` means that
nothing has been found, and one `cancelled` flag.

A step of `searchStep` is one access of a batch to the shared memory (the loop
test on `*solution`, the test of `*cancelled` and of the range end, the locked
check-and-store) or one evaluation of `is_valid_soln`; the remaining labels are
what the handler does to its batches. `is_valid_soln(target, seed, ·) == -1` is
an arbitrary predicate on nonces here.
-/

namespace BitcoinServer.Work

/-- `UINT64_MAX`. -/
def uint64Max : UInt64 := 0xFFFFFFFFFFFFFFFF

/-- What `work_handler` has after it has parsed its command: the start nonce,
the thread count, `is_valid_soln` on the parsed target and seed, and the reply
line it prints for a solution. A count that is not positive ends the process
(a division by zero or a failed allocation), so only positive ones run. -/
structure Job where
  n : UInt64
  threadCount : Nat
  isValidSoln : UInt64 → Bool
  result : UInt64 → List UInt8

/-- `(UINT64_MAX - n) / thread_count`, the count converted to `uint64_t`. -/
def Job.chunk (job : Job) : UInt64 :=
  (uint64Max - job.n) / UInt64.ofNat job.threadCount

/-- `btch_args[i].start = n + i * chunk`. -/
def Job.start (job : Job) (i : Nat) : UInt64 :=
  job.n + UInt64.ofNat i * job.chunk

/-- `btch_args[i].end`: the last batch ends at `UINT64_MAX`. -/
def Job.stop (job : Job) (i : Nat) : UInt64 :=
  if i + 1 = job.threadCount then uint64Max
  else job.n + UInt64.ofNat (i + 1) * job.chunk

/-- Where a `work_btch` thread is: at `while(*solution == 0)`, at
`if(*cancelled || trying >= end)`, at `pthread_testcancel()` and the call of
`is_valid_soln`, at the check-and-store under `sol_mutex`, returned, or ended by
`pthread_testcancel()`. -/
inductive BtchPc where
  | loop | guard | check | store | exited | cancelled
deriving DecidableEq, Repr

/-- One `work_btch` thread with its own copy of its arguments. -/
structure Btch where
  start : UInt64
  stop : UInt64
  trying : UInt64
  pc : BtchPc
  cancelSent : Bool
deriving DecidableEq, Repr

/-- A thread that no longer runs. -/
def Btch.Ended (btch : Btch) : Prop :=
  btch.pc = .exited ∨ btch.pc = .cancelled

instance (btch : Btch) : Decidable btch.Ended :=
  inferInstanceAs (Decidable (_ ∨ _))

/-- The memory shared by a WORK handler and its batches. -/
structure Search where
  solution : UInt64
  cancelled : Bool
  btches : List Btch
deriving DecidableEq, Repr

/-- What `work_handler` sets up before it creates the first batch. -/
def Search.initial : Search := ⟨0, false, []⟩

/-- The thread that `pthread_create(btches + i, NULL, work_btch, ..)` starts. -/
def Job.btch (job : Job) (i : Nat) : Btch :=
  ⟨job.start i, job.stop i, job.start i, .loop, false⟩

/-- A batch goes on, or acts on a pending cancel. -/
inductive BtchAct where
  | run
  | cancel
deriving DecidableEq, Repr

/-- `work_btch`, one step: the thread afterwards and the shared solution. -/
def workBtch (job : Job) (search : Search) (btch : Btch) :
    BtchAct → Option (Btch × UInt64)
  | .run =>
      match btch.pc with
      | .loop =>
          some ({ btch with pc := if search.solution = 0 then .guard else .exited },
            search.solution)
      | .guard =>
          some ({ btch with
            pc := if search.cancelled ∨ btch.stop ≤ btch.trying then .exited else .check },
            search.solution)
      | .check =>
          some (if job.isValidSoln btch.trying then { btch with pc := .store }
            else { btch with trying := btch.trying + 1, pc := .loop }, search.solution)
      | .store =>
          some ({ btch with pc := .exited },
            if search.solution = 0 then btch.trying else search.solution)
      | .exited => none
      | .cancelled => none
  | .cancel =>
      if btch.pc = .check ∧ btch.cancelSent then
        some ({ btch with pc := .cancelled }, search.solution)
      else none

/-- A batch moves, or the handler creates its next batch, sets `*cancelled = 1`
or sends `pthread_cancel` to batch `i`. -/
inductive SearchAct where
  | spawn
  | btch (i : Nat) (act : BtchAct)
  | setCancelled
  | cancelBtch (i : Nat)
deriving DecidableEq, Repr

def searchStep (job : Job) (search : Search) : SearchAct → Option Search
  | .spawn =>
      if search.btches.length < job.threadCount then
        some { search with btches := search.btches ++ [job.btch search.btches.length] }
      else none
  | .btch i act =>
      match search.btches[i]? with
      | none => none
      | some btch =>
          match workBtch job search btch act with
          | none => none
          | some (moved, solution) =>
              some { search with solution := solution, btches := search.btches.set i moved }
  | .setCancelled => some { search with cancelled := true }
  | .cancelBtch i =>
      match search.btches[i]? with
      | none => none
      | some btch =>
          some { search with btches := search.btches.set i { btch with cancelSent := true } }

/-- Every batch has been created and none runs any more. -/
def Search.AllEnded (job : Job) (search : Search) : Prop :=
  search.btches.length = job.threadCount ∧ ∀ btch ∈ search.btches, btch.Ended

/-- Neither the handler's flag nor a `pthread_cancel` has stopped a batch. -/
def Search.NoneCancelled (search : Search) : Prop :=
  search.cancelled = false ∧ ∀ btch ∈ search.btches, btch.pc ≠ .cancelled

instance (job : Job) (search : Search) : Decidable (search.AllEnded job) :=
  inferInstanceAs (Decidable (_ ∧ _))

instance (search : Search) : Decidable search.NoneCancelled :=
  inferInstanceAs (Decidable (_ ∧ _))

/-! ## What a step can do -/

/-- The steps of a batch: one row for each branch, with the thread and the shared solution
afterwards. -/
inductive BtchRow (job : Job) (search : Search) (btch : Btch) :
    BtchAct → Btch → UInt64 → Prop where
  | loopOn (atLoop : btch.pc = .loop) (nothing : search.solution = 0) :
      BtchRow job search btch .run { btch with pc := .guard } search.solution
  | loopOut (atLoop : btch.pc = .loop) (found : search.solution ≠ 0) :
      BtchRow job search btch .run { btch with pc := .exited } search.solution
  | guardOn (atGuard : btch.pc = .guard)
      (ahead : ¬ (search.cancelled = true ∨ btch.stop ≤ btch.trying)) :
      BtchRow job search btch .run { btch with pc := .check } search.solution
  | guardOut (atGuard : btch.pc = .guard)
      (leaves : search.cancelled = true ∨ btch.stop ≤ btch.trying) :
      BtchRow job search btch .run { btch with pc := .exited } search.solution
  | accept (atCheck : btch.pc = .check) (valid : job.isValidSoln btch.trying = true) :
      BtchRow job search btch .run { btch with pc := .store } search.solution
  | reject (atCheck : btch.pc = .check) (invalid : job.isValidSoln btch.trying = false) :
      BtchRow job search btch .run { btch with trying := btch.trying + 1, pc := .loop }
        search.solution
  | store (atStore : btch.pc = .store) (nothing : search.solution = 0) :
      BtchRow job search btch .run { btch with pc := .exited } btch.trying
  | storeLate (atStore : btch.pc = .store) (found : search.solution ≠ 0) :
      BtchRow job search btch .run { btch with pc := .exited } search.solution
  | cancel (atCheck : btch.pc = .check) (sent : btch.cancelSent = true) :
      BtchRow job search btch .cancel { btch with pc := .cancelled } search.solution

inductive SearchRow (job : Job) (search : Search) : SearchAct → Search → Prop where
  | spawn (room : search.btches.length < job.threadCount) :
      SearchRow job search .spawn
        { search with btches := search.btches ++ [job.btch search.btches.length] }
  | btch (i : Nat) (act : BtchAct) (btch moved : Btch) (solution : UInt64)
      (selected : search.btches[i]? = some btch)
      (row : BtchRow job search btch act moved solution) :
      SearchRow job search (.btch i act)
        { search with solution := solution, btches := search.btches.set i moved }
  | setCancelled : SearchRow job search .setCancelled { search with cancelled := true }
  | cancelBtch (i : Nat) (btch : Btch) (selected : search.btches[i]? = some btch) :
      SearchRow job search (.cancelBtch i)
        { search with btches := search.btches.set i { btch with cancelSent := true } }

section Rows

variable {job : Job} {search next : Search} {btch moved : Btch} {solution : UInt64}

theorem workBtch_row {act : BtchAct}
    (moves : workBtch job search btch act = some (moved, solution)) :
    BtchRow job search btch act moved solution := by
  cases act with
  | cancel =>
      rw [workBtch, Option.ite_none_right_eq_some] at moves
      obtain ⟨⟨atCheck, sent⟩, ⟨⟩⟩ := moves
      exact .cancel atCheck sent
  | run =>
      cases pc : btch.pc with
      | loop =>
          simp only [workBtch, pc, Option.some.injEq, Prod.mk.injEq] at moves
          obtain ⟨rfl, rfl⟩ := moves
          by_cases nothing : search.solution = 0
          · simpa only [if_pos nothing] using BtchRow.loopOn pc nothing
          · simpa only [if_neg nothing] using BtchRow.loopOut pc nothing
      | guard =>
          simp only [workBtch, pc, Option.some.injEq, Prod.mk.injEq] at moves
          obtain ⟨rfl, rfl⟩ := moves
          by_cases leaves : search.cancelled = true ∨ btch.stop ≤ btch.trying
          · simpa only [if_pos leaves] using BtchRow.guardOut pc leaves
          · simpa only [if_neg leaves] using BtchRow.guardOn pc leaves
      | check =>
          simp only [workBtch, pc, Option.some.injEq, Prod.mk.injEq] at moves
          obtain ⟨rfl, rfl⟩ := moves
          by_cases valid : job.isValidSoln btch.trying = true
          · simpa only [if_pos valid] using BtchRow.accept pc valid
          · simpa only [if_neg valid] using BtchRow.reject pc (by simpa using valid)
      | store =>
          simp only [workBtch, pc, Option.some.injEq, Prod.mk.injEq] at moves
          obtain ⟨rfl, rfl⟩ := moves
          by_cases nothing : search.solution = 0
          · simpa only [if_pos nothing] using BtchRow.store pc nothing
          · simpa only [if_neg nothing] using BtchRow.storeLate pc nothing
      | exited | cancelled => simp [workBtch, pc] at moves

theorem searchStep_row {label : SearchAct} (taken : searchStep job search label = some next) :
    SearchRow job search label next := by
  cases label with
  | spawn =>
      rw [searchStep, Option.ite_none_right_eq_some] at taken
      obtain ⟨room, ⟨⟩⟩ := taken
      exact .spawn room
  | btch i act =>
      cases selected : search.btches[i]? with
      | none => simp [searchStep, selected] at taken
      | some btch =>
          cases moves : workBtch job search btch act with
          | none => simp [searchStep, selected, moves] at taken
          | some after =>
              simp only [searchStep, selected, moves] at taken
              cases taken
              exact .btch i act btch after.1 after.2 selected (workBtch_row moves)
  | setCancelled =>
      cases taken
      exact .setCancelled
  | cancelBtch i =>
      cases selected : search.btches[i]? with
      | none => simp [searchStep, selected] at taken
      | some btch =>
          simp only [searchStep, selected] at taken
          cases taken
          exact .cancelBtch i btch selected

end Rows

/-! ## Ranges -/

section Ranges

@[simp] theorem toNat_uint64Max : uint64Max.toNat = 2 ^ 64 - 1 := rfl

theorem le_uint64Max (value : UInt64) : value.toNat ≤ 2 ^ 64 - 1 := by
  have := value.toNat_lt
  omega

/-- A non-negative `int` keeps its value as a `uint64_t`. -/
theorem toNat_ofInt {count : Nat} (isInt : count < 2 ^ 31) :
    (UInt64.ofNat count).toNat = count :=
  UInt64.toNat_ofNat_of_lt' (by unfold UInt64.size; omega)

theorem toNat_chunk (job : Job) (isInt : job.threadCount < 2 ^ 31) :
    job.chunk.toNat = (2 ^ 64 - 1 - job.n.toNat) / job.threadCount := by
  have below : job.n ≤ uint64Max := UInt64.le_iff_toNat_le.mpr (le_uint64Max job.n)
  rw [Job.chunk, UInt64.toNat_div, UInt64.toNat_sub_of_le _ _ below, toNat_uint64Max,
    toNat_ofInt isInt]

/-- The products and sums of the range bounds never wrap. -/
theorem toNat_offset (job : Job) (isInt : job.threadCount < 2 ^ 31) {i : Nat}
    (inCount : i ≤ job.threadCount) :
    (job.n + UInt64.ofNat i * job.chunk).toNat = job.n.toNat + i * job.chunk.toNat ∧
      job.n.toNat + i * job.chunk.toNat ≤ 2 ^ 64 - 1 := by
  have room := le_uint64Max job.n
  have product : i * job.chunk.toNat ≤ 2 ^ 64 - 1 - job.n.toNat := by
    rw [toNat_chunk job isInt]
    calc i * ((2 ^ 64 - 1 - job.n.toNat) / job.threadCount)
        ≤ job.threadCount * ((2 ^ 64 - 1 - job.n.toNat) / job.threadCount) :=
          Nat.mul_le_mul_right _ inCount
      _ ≤ 2 ^ 64 - 1 - job.n.toNat := Nat.mul_div_le _ _
  have count : (UInt64.ofNat i).toNat = i := toNat_ofInt (by omega)
  constructor
  · rw [UInt64.toNat_add, UInt64.toNat_mul, count,
      Nat.mod_eq_of_lt (a := i * job.chunk.toNat) (by omega), Nat.mod_eq_of_lt (by omega)]
  · omega

theorem toNat_start (job : Job) (isInt : job.threadCount < 2 ^ 31) {i : Nat}
    (inCount : i ≤ job.threadCount) :
    (job.start i).toNat = job.n.toNat + i * job.chunk.toNat :=
  (toNat_offset job isInt inCount).1

theorem toNat_stop (job : Job) (isInt : job.threadCount < 2 ^ 31) {i : Nat}
    (inCount : i < job.threadCount) :
    (job.stop i).toNat =
      if i + 1 = job.threadCount then 2 ^ 64 - 1
      else job.n.toNat + (i + 1) * job.chunk.toNat := by
  unfold Job.stop
  split
  · rfl
  · exact (toNat_offset job isInt inCount).1

/-- A range never starts after its end. -/
theorem start_le_stop (job : Job) (isInt : job.threadCount < 2 ^ 31) {i : Nat}
    (inCount : i < job.threadCount) : (job.start i).toNat ≤ (job.stop i).toNat := by
  rw [toNat_start job isInt (Nat.le_of_lt inCount), toNat_stop job isInt inCount]
  have last := (toNat_offset job isInt (Nat.le_of_lt inCount)).2
  split
  · exact last
  · rw [Nat.add_mul, Nat.one_mul]
    omega

/-- Every nonce from `n` up to but not including `UINT64_MAX` lies in the range
of some batch. -/
theorem exists_range (job : Job) (positive : 0 < job.threadCount) (isInt : job.threadCount < 2 ^ 31)
    {nonce : UInt64} (atLeast : job.n.toNat ≤ nonce.toNat)
    (below : nonce.toNat < 2 ^ 64 - 1) :
    ∃ i < job.threadCount,
      (job.start i).toNat ≤ nonce.toNat ∧ nonce.toNat < (job.stop i).toNat := by
  -- The batch is the last one whose range starts at or below the nonce.
  have search : ∀ count, count < job.threadCount →
      (job.start (job.threadCount - 1 - count)).toNat ≤ nonce.toNat →
      ∃ i < job.threadCount, (job.start i).toNat ≤ nonce.toNat ∧
        nonce.toNat < (job.stop i).toNat := by
    intro count
    induction count with
    | zero =>
        intro _ started
        refine ⟨job.threadCount - 1, by omega, by simpa using started, ?_⟩
        rw [toNat_stop job isInt (by omega), if_pos (by omega)]
        exact below
    | succ count inductionHypothesis =>
        intro inCount started
        by_cases later : (job.start (job.threadCount - 1 - count)).toNat ≤ nonce.toNat
        · exact inductionHypothesis (by omega) later
        · refine ⟨job.threadCount - 1 - (count + 1), by omega, started, ?_⟩
          rw [toNat_stop job isInt (by omega), if_neg (by omega)]
          rw [toNat_start job isInt (by omega)] at later
          rw [show job.threadCount - 1 - (count + 1) + 1 = job.threadCount - 1 - count by omega]
          omega
  apply search (job.threadCount - 1) (by omega)
  rw [toNat_start job isInt (by omega), Nat.sub_self, Nat.zero_mul]
  exact atLeast

end Ranges

end BitcoinServer.Work
