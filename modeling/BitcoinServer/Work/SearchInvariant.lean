import BitcoinServer.Work.Search

/-!
Contract: what the batches of one WORK have established, in every reachable
state of the search.

`BtchInv` is the invariant of one batch: its range, the nonces it has already
rejected, and the reason for which it left its loop. `SearchInv` adds what a
nonzero shared `solution` stands for. Every label of `searchStep` preserves
both; a nonzero solution and a set `cancelled` flag are never changed again.
-/

namespace BitcoinServer.Work

/-- Invariant of batch `i`. A batch leaves its loop for one of four reasons; the
last is a success at nonce `0`, which its store cannot record. -/
structure BtchInv (job : Job) (search : Search) (i : Nat) (btch : Btch) : Prop where
  start_eq : btch.start = job.start i
  stop_eq : btch.stop = job.stop i
  from_start : btch.start.toNat ≤ btch.trying.toNat
  to_stop : btch.trying.toNat ≤ btch.stop.toNat
  rejected : ∀ nonce : UInt64, btch.start.toNat ≤ nonce.toNat →
    nonce.toNat < btch.trying.toNat → job.isValidSoln nonce = false
  inside : btch.pc = .check ∨ btch.pc = .store → btch.trying.toNat < btch.stop.toNat
  storing : btch.pc = .store → job.isValidSoln btch.trying = true
  left : btch.pc = .exited →
    search.solution ≠ 0 ∨ search.cancelled = true ∨
      btch.trying.toNat = btch.stop.toNat ∨
        (btch.trying = 0 ∧ job.isValidSoln 0 = true)

/-- The shared solution is a nonce that some batch found first in its range. -/
def Found (job : Job) (solution : UInt64) : Prop :=
  ∃ i < job.threadCount,
    (job.start i).toNat ≤ solution.toNat ∧ solution.toNat < (job.stop i).toNat ∧
      job.isValidSoln solution = true ∧
      ∀ nonce : UInt64, (job.start i).toNat ≤ nonce.toNat →
        nonce.toNat < solution.toNat → job.isValidSoln nonce = false

structure SearchInv (job : Job) (search : Search) : Prop where
  count : search.btches.length ≤ job.threadCount
  btch : ∀ i btch, search.btches[i]? = some btch → BtchInv job search i btch
  found : search.solution ≠ 0 → Found job search.solution

section Step

variable {job : Job} {search next : Search} {i : Nat} {btch moved : Btch}
  {act : BtchAct} {solution : UInt64}

theorem searchInv_initial : SearchInv job .initial where
  count := Nat.zero_le _
  btch := by
    intro i btch found
    simp [Search.initial] at found
  found := fun nonzero => absurd rfl nonzero

theorem btchInv_spawn (isInt : job.threadCount < 2 ^ 31) (inCount : i < job.threadCount) :
    BtchInv job search i (job.btch i) where
  start_eq := rfl
  stop_eq := rfl
  from_start := Nat.le_refl _
  to_stop := start_le_stop job isInt inCount
  rejected := fun _ fromStart before => absurd before (Nat.not_lt.mpr fromStart)
  inside := by rintro (atCheck | atStore) <;> contradiction
  storing := nofun
  left := nofun

/-- An invariant of a batch survives what other threads do to the shared
cells: the solution is written once and the flag is only set. -/
theorem BtchInv.other (holds : BtchInv job search i btch)
    (solutionKept : search.solution ≠ 0 → next.solution ≠ 0)
    (flagKept : search.cancelled = true → next.cancelled = true) :
    BtchInv job next i btch where
  start_eq := holds.start_eq
  stop_eq := holds.stop_eq
  from_start := holds.from_start
  to_stop := holds.to_stop
  rejected := holds.rejected
  inside := holds.inside
  storing := holds.storing
  left := fun exited => by
    rcases holds.left exited with nonzero | cancelled | rest
    · exact Or.inl (solutionKept nonzero)
    · exact Or.inr (Or.inl (flagKept cancelled))
    · exact Or.inr (Or.inr rest)

/-- A batch writes the shared solution at most once. -/
theorem BtchRow.keeps_solution (row : BtchRow job search btch act moved solution)
    (nonzero : search.solution ≠ 0) : solution = search.solution := by
  cases row with
  | store atStore nothing => exact absurd nothing nonzero
  | _ => rfl

/-- A batch steps to a nonce only after it has rejected all before it. -/
private theorem rejected_succ {start trying : UInt64}
    (rejected : ∀ nonce : UInt64, start.toNat ≤ nonce.toNat →
      nonce.toNat < trying.toNat → job.isValidSoln nonce = false)
    (invalid : job.isValidSoln trying = false)
    (successor : (trying + 1).toNat = trying.toNat + 1) (nonce : UInt64)
    (fromStart : start.toNat ≤ nonce.toNat) (before : nonce.toNat < (trying + 1).toNat) :
    job.isValidSoln nonce = false := by
  by_cases same : nonce = trying
  · rw [same]
    exact invalid
  · have different : nonce.toNat ≠ trying.toNat := fun equal => same (UInt64.toNat_inj.mp equal)
    exact rejected nonce fromStart (by omega)

/-- One step of a batch keeps its own invariant. -/
theorem BtchInv.step (holds : BtchInv job search i btch)
    (row : BtchRow job search btch act moved solution)
    (solution_eq : next.solution = solution) (flag_eq : next.cancelled = search.cancelled) :
    BtchInv job next i moved := by
  have notInside : ∀ pc : BtchPc, pc ≠ .check → pc ≠ .store → ¬ (pc = .check ∨ pc = .store) :=
    fun pc noCheck noStore inside => inside.elim noCheck noStore
  cases row with
  | loopOn atLoop nothing =>
      exact { holds with
        inside := fun reached => absurd reached (notInside _ nofun nofun)
        storing := nofun
        left := nofun }
  | loopOut atLoop found =>
      exact { holds with
        inside := fun reached => absurd reached (notInside _ nofun nofun)
        storing := nofun
        left := fun _ => Or.inl (solution_eq ▸ found) }
  | guardOn atGuard ahead =>
      have before : ¬ btch.stop.toNat ≤ btch.trying.toNat := fun finished =>
        ahead (Or.inr (UInt64.le_iff_toNat_le.mpr finished))
      exact { holds with
        inside := fun _ => Nat.lt_of_not_le before
        storing := nofun
        left := nofun }
  | guardOut atGuard leaves =>
      refine { holds with
        inside := fun reached => absurd reached (notInside _ nofun nofun)
        storing := nofun
        left := fun _ => ?_ }
      rcases leaves with cancelled | finished
      · exact Or.inr (Or.inl (flag_eq ▸ cancelled))
      · have reached := UInt64.le_iff_toNat_le.mp finished
        exact Or.inr (Or.inr (Or.inl (Nat.le_antisymm holds.to_stop reached)))
  | accept atCheck valid =>
      exact { holds with
        inside := fun _ => holds.inside (Or.inl atCheck)
        storing := fun _ => valid
        left := nofun }
  | reject atCheck invalid =>
      have ahead := holds.inside (Or.inl atCheck)
      have room := le_uint64Max btch.stop
      have successor : (btch.trying + 1).toNat = btch.trying.toNat + 1 := by
        rw [UInt64.toNat_add]
        exact Nat.mod_eq_of_lt (by simp; omega)
      have fromStart := holds.from_start
      exact { holds with
        from_start := by simp only; omega
        to_stop := by simp only; omega
        rejected := rejected_succ holds.rejected invalid successor
        inside := fun reached => absurd reached (notInside _ nofun nofun)
        storing := nofun
        left := nofun }
  | store atStore nothing =>
      refine { holds with
        inside := fun reached => absurd reached (notInside _ nofun nofun)
        storing := nofun
        left := fun _ => ?_ }
      by_cases atZero : btch.trying = 0
      · exact Or.inr (Or.inr (Or.inr ⟨atZero, atZero ▸ holds.storing atStore⟩))
      · exact Or.inl (solution_eq ▸ atZero)
  | storeLate atStore found =>
      exact { holds with
        inside := fun reached => absurd reached (notInside _ nofun nofun)
        storing := nofun
        left := fun _ => Or.inl (solution_eq ▸ found) }
  | cancel atCheck sent =>
      exact { holds with
        inside := fun reached => absurd reached (notInside _ nofun nofun)
        storing := nofun
        left := nofun }

/-- A batch that writes the shared solution writes the first valid nonce of its range. -/
theorem BtchRow.stores (row : BtchRow job search btch act moved solution)
    (holds : BtchInv job search i btch) (nothing : search.solution = 0) (nonzero : solution ≠ 0) :
    act = .run ∧ (job.start i).toNat ≤ solution.toNat ∧ solution.toNat < (job.stop i).toNat ∧
      job.isValidSoln solution = true ∧
      ∀ nonce : UInt64, (job.start i).toNat ≤ nonce.toNat →
        nonce.toNat < solution.toNat → job.isValidSoln nonce = false := by
  cases row with
  | store atStore _ =>
      rw [← holds.start_eq, ← holds.stop_eq]
      exact ⟨rfl, holds.from_start, holds.inside (Or.inr atStore), holds.storing atStore,
        holds.rejected⟩
  | _ => exact absurd nothing nonzero

/-- What a batch leaves in the shared solution is found. -/
theorem BtchRow.found (row : BtchRow job search btch act moved solution)
    (holds : BtchInv job search i btch) (inCount : i < job.threadCount)
    (found : search.solution ≠ 0 → Found job search.solution) (nonzero : solution ≠ 0) :
    Found job solution := by
  by_cases already : search.solution = 0
  · exact ⟨i, inCount, (row.stores holds already nonzero).2⟩
  · rw [row.keeps_solution already]
    exact found already

/-- Every label of the search preserves the invariant. -/
theorem SearchInv.step (isInt : job.threadCount < 2 ^ 31) (holds : SearchInv job search)
    {label : SearchAct} (taken : searchStep job search label = some next) :
    SearchInv job next := by
  cases searchStep_row taken with
  | spawn room =>
      refine ⟨by simpa using Nat.succ_le_of_lt room, ?_, holds.found⟩
      intro j other present
      by_cases old : j < search.btches.length
      · rw [List.getElem?_append_left old] at present
        exact (holds.btch j other present).other id id
      · have newest : j = search.btches.length := by
          have := List.getElem?_eq_some_iff.mp present |>.1
          simp at this
          omega
        subst newest
        obtain rfl : job.btch search.btches.length = other := by simpa using present
        exact btchInv_spawn isInt room
  | btch i act btch moved solution selected row =>
      have inside : i < search.btches.length := (List.getElem?_eq_some_iff.mp selected).1
      have own := holds.btch i btch selected
      refine ⟨by simpa using holds.count, ?_, fun nonzero => ?_⟩
      · intro j other present
        by_cases same : i = j
        · subst same
          obtain rfl : moved = other := by simpa [inside] using present
          exact own.step row rfl rfl
        · rw [List.getElem?_set_ne same] at present
          refine (holds.btch j other present).other (fun nonzero => ?_) id
          rw [row.keeps_solution nonzero]
          exact nonzero
      · exact row.found own (Nat.lt_of_lt_of_le inside holds.count) holds.found nonzero
  | setCancelled =>
      exact ⟨holds.count, fun j other present =>
        (holds.btch j other present).other id fun _ => rfl, holds.found⟩
  | cancelBtch i btch selected =>
      have inside : i < search.btches.length := (List.getElem?_eq_some_iff.mp selected).1
      refine ⟨by simpa using holds.count, ?_, holds.found⟩
      intro j other present
      by_cases same : i = j
      · subst same
        obtain rfl : { btch with cancelSent := true } = other := by
          simpa [inside] using present
        exact { (holds.btch i btch selected).other id id with }
      · rw [List.getElem?_set_ne same] at present
        exact (holds.btch j other present).other id id

/-- The shared solution is written once. -/
theorem searchStep_keeps_solution {label : SearchAct}
    (taken : searchStep job search label = some next) (nonzero : search.solution ≠ 0) :
    next.solution = search.solution := by
  cases searchStep_row taken with
  | btch i act btch moved solution selected row => exact row.keeps_solution nonzero
  | _ => rfl

/-- A step of a batch creates none. -/
theorem searchStep_btch_length (taken : searchStep job search (.btch i act) = some next) :
    next.btches.length = search.btches.length := by
  cases searchStep_row taken with
  | btch i act btch moved solution selected row => exact List.length_set

end Step

theorem searchInv_of_reachable {job : Job} (isInt : job.threadCount < 2 ^ 31)
    {search : Search} (reached : Transition.Reachable (searchStep job) .initial search) :
    SearchInv job search :=
  reached.invariant searchInv_initial fun _ _ _ holds taken => holds.step isInt taken

end BitcoinServer.Work
