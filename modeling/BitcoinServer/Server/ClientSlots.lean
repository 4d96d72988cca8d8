import BitcoinServer.Server.Accept

/-!
Contract: exclusive use of the client slots.

A client thread clears its flag in a loop that reads it again after `reset_flag`. A
read that comes after `main` has claimed the slot for the next client clears that
client's flag. Owns the exclusive use in all runs without such a read, and the run to a
shared slot that every such read leaves open.
-/

namespace BitcoinServer.Server

open Transition

/-- The slot that `main` has claimed for the client it is about to serve. -/
def Main.claimed : Main → Option Nat
  | .reuse _ i | .joining _ i _ | .create _ i => some i
  | .accept | .claiming _ => none

/-- A thread that has been created and has not ended. -/
def ClientPc.live : ClientPc → Bool
  | .uncreated | .ended => false
  | _ => true

/-- While the client of a slot is served its flag is 1, `main` does not assign the slot
again, and is not in `pthread_join` on its thread. -/
structure SlotsExclusive (s : State) : Prop where
  held : ∀ t, s.pc t = .serving → s.flags (s.slot t) = true
  notAvailable : ∀ t, s.pc t = .serving →
    getAvailThread s.flags clientCount ≠ some (s.slot t)
  notClaimed : ∀ t, s.pc t = .serving → s.main.claimed ≠ some (s.slot t)
  notJoined : ∀ conn i t, s.main = .joining conn i t → s.pc t ≠ .serving

/-- The step is no loop test of `client_handler_cleanup` that, after the thread's own
`reset_flag`, finds the flag of its slot set again. -/
def ReadsOwnFlag (s : State) : Label → Prop
  | .client t => s.pc t = .test → s.cleared t = true → s.flags (s.slot t) = false
  | _ => True

instance (s : State) : ∀ label, Decidable (ReadsOwnFlag s label)
  | .client _ => inferInstanceAs (Decidable (_ → _))
  | .connect | .main | .create _ => inferInstanceAs (Decidable True)

/-- The latest thread of a slot is in `thread_pool`, and has ended before `main` creates
the next one. -/
structure PoolInv (s : State) : Prop where
  uncreated : ∀ t, s.pc t = .uncreated ↔ s.count ≤ t
  unclear : ∀ t, s.count ≤ t → s.cleared t = false
  pool : ∀ i t, s.pool i = some t → s.slot t = i ∧ t < s.count
  live : ∀ t, (s.pc t).live = true → s.pool (s.slot t) = some t
  joining : ∀ conn i t, s.main = .joining conn i t → s.pool i = some t
  create : ∀ conn i t, s.main = .create conn i → s.pool i = some t → s.pc t = .ended

/-- A thread that has not called `reset_flag` has its flag to itself; one that has sees it
set again only once `main` has claimed the slot. -/
structure FlagInv (s : State) : Prop where
  held : ∀ t, (s.pc t).live = true → s.cleared t = false →
    s.flags (s.slot t) = true ∧ s.main.claimed ≠ some (s.slot t)
  early : ∀ t, s.pc t = .serving ∨ s.pc t = .closing ∨ s.pc t = .reset → s.cleared t = false
  claimed : ∀ i, s.main.claimed = some i → s.flags i = true
  reclaimed : ∀ t, (s.pc t).live = true → s.cleared t = true → s.flags (s.slot t) = true →
    s.main.claimed = some (s.slot t)

section Facts

variable {s next : State} {label : Label}

theorem PoolInv.live_unique (inv : PoolInv s) {t u : Nat} (live : (s.pc t).live = true)
    (otherLive : (s.pc u).live = true) (same : s.slot t = s.slot u) : t = u := by
  have mine := inv.live t live
  rw [same, inv.live u otherLive] at mine
  exact (Option.some.inj mine).symm

theorem PoolInv.lt_count (inv : PoolInv s) {t : Nat} (created : s.pc t ≠ .uncreated) :
    t < s.count :=
  Nat.lt_of_not_le fun beyond => created ((inv.uncreated t).mpr beyond)

theorem ClientPc.created_of_live {pc : ClientPc} (live : pc.live = true) : pc ≠ .uncreated := by
  rintro rfl
  cases live

theorem poolInv_initial : PoolInv State.initial := by
  constructor <;> simp [State.initial, ClientPc.live]

/-! ## The pool -/

/-- `main` moves and creates no thread. -/
private theorem PoolInv.main (inv : PoolInv s) (samePool : next.pool = s.pool)
    (sameCount : next.count = s.count) (sameSlot : next.slot = s.slot) (samePc : next.pc = s.pc)
    (sameCleared : next.cleared = s.cleared)
    (joining : ∀ conn i t, next.main = .joining conn i t → s.pool i = some t)
    (create : ∀ conn i t, next.main = .create conn i → s.pool i = some t → s.pc t = .ended) :
    PoolInv next := by
  constructor
  · rw [samePc, sameCount]
    exact inv.uncreated
  · rw [sameCleared, sameCount]
    exact inv.unclear
  · rw [samePool, sameSlot, sameCount]
    exact inv.pool
  · rw [samePool, sameSlot, samePc]
    exact inv.live
  · rw [samePool]
    exact joining
  · rw [samePool, samePc]
    exact create

/-- A client thread moves. -/
private theorem PoolInv.client (inv : PoolInv s) {t : Nat} {pc : ClientPc}
    (live : (s.pc t).live = true) (moved : next.pc = Function.update s.pc t pc)
    (created : pc ≠ .uncreated) (sameMain : next.main = s.main)
    (samePool : next.pool = s.pool) (sameCount : next.count = s.count)
    (sameSlot : next.slot = s.slot) (others : ∀ u, u ≠ t → next.cleared u = s.cleared u) :
    PoolInv next := by
  have inCount := inv.lt_count (ClientPc.created_of_live live)
  constructor
  · intro u
    rw [moved, sameCount]
    by_cases self : u = t
    · rw [self, Function.update_self]
      exact iff_of_false created (by omega)
    · rw [Function.update_of_ne self]
      exact inv.uncreated u
  · intro u beyond
    rw [sameCount] at beyond
    rw [others u (by omega)]
    exact inv.unclear u beyond
  · rw [samePool, sameSlot, sameCount]
    exact inv.pool
  · intro u liveNext
    rw [moved] at liveNext
    rw [samePool, sameSlot]
    by_cases self : u = t
    · rw [self]
      exact inv.live t live
    · rw [Function.update_of_ne self] at liveNext
      exact inv.live u liveNext
  · rw [sameMain, samePool]
    exact inv.joining
  · intro conn i u atCreate pooled
    rw [sameMain] at atCreate
    rw [samePool] at pooled
    have ended := inv.create conn i u atCreate pooled
    have other : u ≠ t := by
      rintro rfl
      rw [ended] at live
      cases live
    rw [moved, Function.update_of_ne other]
    exact ended

private theorem PoolInv.spawn (inv : PoolInv s) {conn i : Nat}
    (atCreate : s.main = .create conn i) :
    PoolInv (s.spawn conn i) := by
  have old : ∀ t, t < s.count → (s.spawn conn i).slot t = s.slot t ∧
      (s.spawn conn i).pc t = s.pc t := by
    intro t inCount
    exact ⟨Function.update_of_ne (Nat.ne_of_lt inCount) ..,
      Function.update_of_ne (Nat.ne_of_lt inCount) ..⟩
  have newSlot : (s.spawn conn i).slot s.count = i := Function.update_self ..
  have newPc : (s.spawn conn i).pc s.count = .serving := Function.update_self ..
  constructor
  · intro t
    show _ ↔ s.count + 1 ≤ t
    by_cases self : t = s.count
    · rw [self, newPc]
      exact iff_of_false nofun (by omega)
    · show Function.update s.pc s.count .serving t = .uncreated ↔ _
      rw [Function.update_of_ne self, inv.uncreated t]
      omega
  · intro t beyond
    exact inv.unclear t (Nat.le_of_succ_le beyond)
  · intro k t pooled
    change Function.update s.pool i (some s.count) k = some t at pooled
    show _ ∧ t < s.count + 1
    by_cases same : k = i
    · rw [same, Function.update_self] at pooled
      cases pooled
      exact ⟨newSlot.trans same.symm, Nat.lt_succ_self _⟩
    · rw [Function.update_of_ne same] at pooled
      obtain ⟨sameSlot, inCount⟩ := inv.pool k t pooled
      exact ⟨(old t inCount).1.trans sameSlot, Nat.lt_succ_of_lt inCount⟩
  · intro t live
    show Function.update s.pool i (some s.count) _ = some t
    by_cases self : t = s.count
    · rw [self, newSlot, Function.update_self]
    · rw [show (s.spawn conn i).pc t = s.pc t from Function.update_of_ne self ..] at live
      have inCount := inv.lt_count (ClientPc.created_of_live live)
      have pooled := inv.live t live
      rw [(old t inCount).1]
      have other : s.slot t ≠ i := by
        intro same
        rw [same] at pooled
        rw [inv.create conn i t atCreate pooled] at live
        cases live
      rw [Function.update_of_ne other]
      exact pooled
  · intro conn k t impossible
    cases impossible
  · intro conn k t impossible
    cases impossible

theorem PoolInv.step (inv : PoolInv s) (row : Row s label next) : PoolInv next := by
  cases row with
  | joined conn i thread atJoin isOver =>
      refine inv.main rfl rfl rfl rfl rfl nofun ?_
      intro _ k t atCreate pooled
      cases atCreate
      rw [inv.joining conn i thread atJoin] at pooled
      cases pooled
      exact isOver
  | fresh conn i atReuse noThread =>
      refine inv.main rfl rfl rfl rfl rfl nofun ?_
      intro _ k t atCreate pooled
      cases atCreate
      rw [noThread] at pooled
      cases pooled
  | join conn i thread atReuse previous =>
      refine inv.main rfl rfl rfl rfl rfl ?_ nofun
      intro _ k t atJoin
      cases atJoin
      exact previous
  | created conn i atCreate => exact inv.spawn atCreate
  | connect atAccept | refuse conn atClaim full | claim conn i atClaim avail
  | negative error conn i atCreate isNegative | notCreated error conn i atCreate positive =>
      exact inv.main rfl rfl rfl rfl rfl nofun nofun
  | leave t atPc | close t atPc | testSet t atPc isSet | testClear t atPc isClear =>
      exact inv.client (by rw [atPc]; rfl) rfl nofun rfl rfl rfl rfl fun _ _ => rfl
  | reset t atReset =>
      exact inv.client (by rw [atReset]; rfl) rfl nofun rfl rfl rfl rfl
        fun _ other => Function.update_of_ne other ..

theorem poolInv_of_reachable (reached : Reachable Server.step State.initial s) : PoolInv s :=
  reached.invariant poolInv_initial fun _ _ _ inv taken => inv.step (step_row taken)

/-! ## The flags -/

theorem flagInv_initial : FlagInv State.initial := by
  constructor <;> simp [State.initial, ClientPc.live, Main.claimed]

/-- `main` moves and touches no flag. -/
private theorem FlagInv.main (inv : FlagInv s) (sameFlags : next.flags = s.flags)
    (sameSlot : next.slot = s.slot) (samePc : next.pc = s.pc)
    (sameCleared : next.cleared = s.cleared)
    (sameClaim : next.main.claimed = s.main.claimed) : FlagInv next := by
  constructor
  · rw [samePc, sameCleared, sameFlags, sameSlot, sameClaim]
    exact inv.held
  · rw [samePc, sameCleared]
    exact inv.early
  · rw [sameClaim, sameFlags]
    exact inv.claimed
  · rw [samePc, sameCleared, sameFlags, sameSlot, sameClaim]
    exact inv.reclaimed

/-- `main` gives up the slot it has claimed, whose last thread has ended. -/
private theorem FlagInv.giveUp (inv : FlagInv s) (poolInv : PoolInv s) {conn i : Nat}
    (atCreate : s.main = .create conn i) (sameFlags : next.flags = s.flags)
    (sameSlot : next.slot = s.slot) (samePc : next.pc = s.pc)
    (sameCleared : next.cleared = s.cleared)
    (noClaim : next.main.claimed = none) : FlagInv next := by
  constructor
  · intro t live uncleared
    rw [samePc] at live
    rw [sameCleared] at uncleared
    rw [sameFlags, sameSlot, noClaim]
    exact ⟨(inv.held t live uncleared).1, nofun⟩
  · rw [samePc, sameCleared]
    exact inv.early
  · intro k impossible
    rw [noClaim] at impossible
    cases impossible
  · intro t live cleared isSet
    rw [samePc] at live
    rw [sameCleared] at cleared
    rw [sameFlags, sameSlot] at isSet
    have same := inv.reclaimed t live cleared isSet
    rw [atCreate] at same
    have pooled := poolInv.live t live
    rw [← Option.some.inj same] at pooled
    rw [poolInv.create conn i t atCreate pooled] at live
    cases live

private theorem FlagInv.claim (inv : FlagInv s) {conn i : Nat} (atClaim : s.main = .claiming conn)
    (avail : getAvailThread s.flags clientCount = some i) :
    FlagInv { s with flags := Function.update s.flags i true, main := .reuse conn i } := by
  have free : s.flags i = false := flag_of_getAvailThread avail
  constructor
  · intro t live uncleared
    have held := (inv.held t live uncleared).1
    have other : s.slot t ≠ i := by
      intro same
      rw [same, free] at held
      cases held
    refine ⟨?_, fun same => other (Option.some.inj same).symm⟩
    show Function.update s.flags i true (s.slot t) = true
    rw [Function.update_of_ne other, held]
  · exact inv.early
  · intro k same
    cases same
    exact Function.update_self ..
  · intro t live cleared isSet
    change Function.update s.flags i true (s.slot t) = true at isSet
    show some i = some (s.slot t)
    by_cases same : s.slot t = i
    · rw [same]
    · rw [Function.update_of_ne same] at isSet
      have claimed := inv.reclaimed t live cleared isSet
      rw [atClaim] at claimed
      cases claimed

private theorem FlagInv.spawn (inv : FlagInv s) (poolInv : PoolInv s) {conn i : Nat}
    (atCreate : s.main = .create conn i) : FlagInv (s.spawn conn i) := by
  have isSet : s.flags i = true := inv.claimed i (by rw [atCreate]; rfl)
  have others : ∀ t, t ≠ s.count → (s.spawn conn i).pc t = s.pc t ∧
      (s.spawn conn i).slot t = s.slot t := fun t other =>
    ⟨Function.update_of_ne other .., Function.update_of_ne other ..⟩
  have newSlot : (s.spawn conn i).slot s.count = i := Function.update_self ..
  have newClear : s.cleared s.count = false := poolInv.unclear s.count (Nat.le_refl _)
  -- After the claim is given up, only the new thread is there besides those of before.
  have gaveUp : FlagInv { s with main := .accept } :=
    inv.giveUp poolInv atCreate rfl rfl rfl rfl rfl
  constructor
  · intro t live uncleared
    refine ⟨?_, nofun⟩
    show s.flags ((s.spawn conn i).slot t) = true
    by_cases self : t = s.count
    · rw [self, newSlot]
      exact isSet
    · rw [(others t self).1] at live
      rw [(others t self).2]
      exact (gaveUp.held t live uncleared).1
  · intro t early
    show s.cleared t = false
    by_cases self : t = s.count
    · rw [self]
      exact newClear
    · rw [(others t self).1] at early
      exact inv.early t early
  · intro k impossible
    cases impossible
  · intro t live cleared set
    change s.cleared t = true at cleared
    have self : t ≠ s.count := by
      rintro rfl
      rw [newClear] at cleared
      cases cleared
    rw [(others t self).1] at live
    change s.flags ((s.spawn conn i).slot t) = true at set
    rw [(others t self).2] at set
    exact absurd (gaveUp.reclaimed t live cleared set) nofun

/-- A client thread moves and touches no flag. -/
private theorem FlagInv.client (inv : FlagInv s) {t : Nat} {pc : ClientPc}
    (live : (s.pc t).live = true) (moved : next.pc = Function.update s.pc t pc)
    (early : pc = .serving ∨ pc = .closing ∨ pc = .reset → s.cleared t = false)
    (sameFlags : next.flags = s.flags) (sameMain : next.main = s.main)
    (sameSlot : next.slot = s.slot) (sameCleared : next.cleared = s.cleared) : FlagInv next := by
  have before : ∀ u, (next.pc u).live = true → (s.pc u).live = true := by
    intro u liveNext
    by_cases self : u = t
    · rw [self]
      exact live
    · rw [moved, Function.update_of_ne self] at liveNext
      exact liveNext
  constructor
  · intro u liveNext uncleared
    rw [sameCleared] at uncleared
    rw [sameFlags, sameSlot, sameMain]
    exact inv.held u (before u liveNext) uncleared
  · intro u earlyNext
    rw [sameCleared]
    by_cases self : u = t
    · rw [self, moved, Function.update_self] at earlyNext
      rw [self]
      exact early earlyNext
    · rw [moved, Function.update_of_ne self] at earlyNext
      exact inv.early u earlyNext
  · rw [sameMain, sameFlags]
    exact inv.claimed
  · intro u liveNext cleared set
    rw [sameCleared] at cleared
    rw [sameFlags, sameSlot] at set
    rw [sameMain, sameSlot]
    exact inv.reclaimed u (before u liveNext) cleared set

private theorem FlagInv.reset (inv : FlagInv s) (poolInv : PoolInv s) {t : Nat}
    (atReset : s.pc t = .reset) :
    FlagInv { s with
      flags := Function.update s.flags (s.slot t) false
      cleared := Function.update s.cleared t true
      pc := Function.update s.pc t .test } := by
  have live : (s.pc t).live = true := by
    rw [atReset]
    rfl
  have uncleared := inv.early t (.inr (.inr atReset))
  have unclaimed := (inv.held t live uncleared).2
  have otherSlot : ∀ u, u ≠ t → (Function.update s.pc t .test u).live = true →
      (s.pc u).live = true ∧ s.slot u ≠ s.slot t := by
    intro u other liveNext
    rw [Function.update_of_ne other] at liveNext
    exact ⟨liveNext, fun same => other (poolInv.live_unique liveNext live same)⟩
  constructor
  · intro u liveNext clearNext
    change Function.update s.cleared t true u = false at clearNext
    have other : u ≠ t := by
      rintro rfl
      rw [Function.update_self] at clearNext
      cases clearNext
    obtain ⟨liveU, slots⟩ := otherSlot u other liveNext
    rw [Function.update_of_ne other] at clearNext
    obtain ⟨set, notClaimed⟩ := inv.held u liveU clearNext
    refine ⟨?_, notClaimed⟩
    show Function.update s.flags (s.slot t) false (s.slot u) = true
    rw [Function.update_of_ne slots, set]
  · intro u earlyNext
    change Function.update s.pc t .test u = _ ∨ Function.update s.pc t .test u = _ ∨
      Function.update s.pc t .test u = _ at earlyNext
    show Function.update s.cleared t true u = false
    have other : u ≠ t := by
      rintro rfl
      rw [Function.update_self] at earlyNext
      rcases earlyNext with impossible | impossible | impossible <;> cases impossible
    rw [Function.update_of_ne other] at earlyNext ⊢
    exact inv.early u earlyNext
  · intro i claimed
    show Function.update s.flags (s.slot t) false i = true
    have other : i ≠ s.slot t := by
      rintro rfl
      exact unclaimed claimed
    rw [Function.update_of_ne other]
    exact inv.claimed i claimed
  · intro u liveNext cleared set
    change Function.update s.flags (s.slot t) false (s.slot u) = true at set
    change Function.update s.cleared t true u = true at cleared
    by_cases self : u = t
    · rw [self, Function.update_self] at set
      cases set
    · obtain ⟨liveU, slots⟩ := otherSlot u self liveNext
      rw [Function.update_of_ne slots] at set
      rw [Function.update_of_ne self] at cleared
      exact inv.reclaimed u liveU cleared set

theorem FlagInv.step (inv : FlagInv s) (poolInv : PoolInv s) (row : Row s label next)
    (own : ReadsOwnFlag s label) : FlagInv next := by
  cases row with
  | connect atAccept => exact inv.main rfl rfl rfl rfl (by rw [atAccept]; rfl)
  | refuse conn atClaim full => exact inv.main rfl rfl rfl rfl (by rw [atClaim]; rfl)
  | claim conn i atClaim avail => exact inv.claim atClaim avail
  | fresh conn i atReuse noThread => exact inv.main rfl rfl rfl rfl (by rw [atReuse]; rfl)
  | join conn i thread atReuse previous => exact inv.main rfl rfl rfl rfl (by rw [atReuse]; rfl)
  | joined conn i thread atJoin isOver => exact inv.main rfl rfl rfl rfl (by rw [atJoin]; rfl)
  | negative error conn i atCreate isNegative =>
      exact inv.giveUp poolInv atCreate rfl rfl rfl rfl rfl
  | notCreated error conn i atCreate positive =>
      exact inv.giveUp poolInv atCreate rfl rfl rfl rfl rfl
  | created conn i atCreate => exact inv.spawn poolInv atCreate
  | leave t atLoop =>
      exact inv.client (by rw [atLoop]; rfl) rfl (fun _ => inv.early t (.inl atLoop))
        rfl rfl rfl rfl
  | close t atClose =>
      exact inv.client (by rw [atClose]; rfl) rfl (by simp) rfl rfl rfl rfl
  | testSet t atTest isSet =>
      refine inv.client (by rw [atTest]; rfl) rfl ?_ rfl rfl rfl rfl
      intro _
      by_contra cleared
      rw [Bool.not_eq_false] at cleared
      rw [own atTest cleared] at isSet
      cases isSet
  | testClear t atTest isClear =>
      exact inv.client (by rw [atTest]; rfl) rfl (by simp) rfl rfl rfl rfl
  | reset t atReset => exact inv.reset poolInv atReset

theorem flagInv_of_reachable (reached : ReachableIf Server.step ReadsOwnFlag State.initial s) :
    FlagInv s :=
  reached.invariant flagInv_initial
    (fun _ _ _ before inv own taken =>
      inv.step (poolInv_of_reachable before.reachable) (step_row taken) own)

/-! ## Exclusive slots -/

theorem slotsExclusive_of_flagInv (inv : FlagInv s) (poolInv : PoolInv s) : SlotsExclusive s := by
  have held : ∀ t, s.pc t = .serving →
      s.flags (s.slot t) = true ∧ s.main.claimed ≠ some (s.slot t) := by
    intro t serving
    exact inv.held t (by rw [serving]; rfl) (inv.early t (.inl serving))
  constructor
  · exact fun t serving => (held t serving).1
  · intro t serving avail
    have isSet := (held t serving).1
    rw [flag_of_getAvailThread avail] at isSet
    cases isSet
  · exact fun t serving => (held t serving).2
  · intro conn i t atJoin serving
    have unclaimed := (held t serving).2
    rw [(poolInv.pool i t (poolInv.joining conn i t atJoin)).1, atJoin] at unclaimed
    exact unclaimed rfl

/-- A thread in `reset_flag` clears its flag, finds it cleared and ends. -/
private theorem reach_ended {t : Nat} (atReset : s.pc t = .reset) :
    ∃ later, Reachable Server.step s later ∧ later.pc t = .ended ∧ later.flags (s.slot t) = false ∧
      later.main = s.main ∧ later.pool = s.pool ∧ later.slot = s.slot := by
  let cleared : State := { s with
    flags := Function.update s.flags (s.slot t) false
    cleared := Function.update s.cleared t true
    pc := Function.update s.pc t .test }
  let left : State := { cleared with pc := Function.update cleared.pc t .ended }
  have clears : Server.step s (.client t) = some cleared := by
    simp [Server.step, clientStep, atReset, cleared]
  have leaves : Server.step cleared (.client t) = some left := by
    simp [Server.step, clientStep, cleared, left]
  exact ⟨left, (Reachable.advance _ .here clears).advance _ leaves, Function.update_self ..,
    Function.update_self .., rfl, rfl, rfl⟩

/-- `main` joins the ended thread of a slot and serves its next client there, whatever the
flag. -/
private theorem reach_shared (conn : Nat) {t : Nat} (isOver : s.pc t = .ended)
    (clear : s.flags (s.slot t) = false)
    (claimed : s.main = .joining conn (s.slot t) t) :
    ∃ later, Reachable Server.step s later ∧ ¬ SlotsExclusive later := by
  let joined : State := { s with main := .create conn (s.slot t) }
  have joins : Server.step s .main = some joined := by
    simp [Server.step, mainStep, claimed, isOver, joined]
  have creates : Server.step joined (.create 0) = some (joined.spawn conn (s.slot t)) := by
    simp [Server.step, createStep, joined]
  refine ⟨joined.spawn conn (s.slot t), (Reachable.advance _ .here joins).advance _ creates, ?_⟩
  intro exclusive
  have held := exclusive.held s.count (Function.update_self ..)
  change s.flags (Function.update s.slot s.count (s.slot t) s.count) = true at held
  rw [Function.update_self, clear] at held
  cases held

/-- A loop test that finds the flag set by `main` ends in a client whose flag is 0. -/
theorem reread_shares (inv : FlagInv s) (poolInv : PoolInv s)
    (taken : Server.step s label = some next) (rereads : ¬ ReadsOwnFlag s label) :
    ∃ later, Reachable Server.step next later ∧ ¬ SlotsExclusive later := by
  have row := step_row taken
  cases row with
  | testSet t atTest isSet =>
      have cleared : s.cleared t = true := by
        by_contra uncleared
        exact rereads fun _ isCleared => absurd isCleared uncleared
      have live : (s.pc t).live = true := by
        rw [atTest]
        rfl
      have pooled := poolInv.live t live
      have claimed := inv.reclaimed t live cleared isSet
      obtain ⟨ended, reached, isOver, clear, sameMain, samePool, sameSlot⟩ :=
        reach_ended (s := { s with pc := Function.update s.pc t .reset }) (t := t)
          (Function.update_self ..)
      change ended.main = s.main at sameMain
      change ended.pool = s.pool at samePool
      change ended.slot = s.slot at sameSlot
      change ended.flags (s.slot t) = false at clear
      rw [← sameSlot] at clear
      suffices shares : ∃ later, Reachable Server.step ended later ∧ ¬ SlotsExclusive later by
        obtain ⟨later, onward, shared⟩ := shares
        exact ⟨later, reached.trans onward, shared⟩
      cases atMain : s.main with
      | accept | claiming conn =>
          rw [atMain] at claimed
          cases claimed
      | create conn i =>
          rw [atMain] at claimed
          cases claimed
          rw [poolInv.create conn _ t atMain pooled] at live
          cases live
      | joining conn i thread =>
          rw [atMain] at claimed
          cases claimed
          have same := poolInv.joining conn _ thread atMain
          rw [pooled] at same
          cases same
          exact reach_shared conn isOver clear (by rw [sameMain, sameSlot, atMain])
      | reuse conn i =>
          rw [atMain] at claimed
          cases claimed
          let waiting : State := { ended with main := .joining conn (ended.slot t) t }
          have waits : Server.step ended .main = some waiting := by
            simp [Server.step, mainStep, sameMain, atMain, samePool, sameSlot, pooled, waiting]
          obtain ⟨later, onward, shared⟩ :=
            reach_shared (s := waiting) conn isOver clear rfl
          exact ⟨later, (Reachable.advance _ .here waits).trans onward, shared⟩
  | testClear t atTest isClear => exact absurd (fun _ _ => isClear) rereads
  | leave t atPc | close t atPc | reset t atPc =>
      refine absurd (fun atTest => ?_) rereads
      rw [atPc] at atTest
      cases atTest
  | _ => exact absurd trivial rereads

/-- Where no client thread finds its flag set again after its `reset_flag`, every slot is
exclusively its client's; and each such read can be continued to a shared slot. -/
theorem client_slots_exclusive_iff {s : State}
    (reached : ReachableIf Server.step ReadsOwnFlag State.initial s) :
    SlotsExclusive s ∧
      ∀ label next, Server.step s label = some next → ¬ ReadsOwnFlag s label →
        ∃ later, Reachable Server.step next later ∧ ¬ SlotsExclusive later := by
  have flagInv := flagInv_of_reachable reached
  have poolInv := poolInv_of_reachable reached.reachable
  constructor
  · exact slotsExclusive_of_flagInv flagInv poolInv
  · intro label next taken rereads
    exact reread_shares flagInv poolInv taken rereads

/-- A client is served in the slot of one that has left. -/
theorem client_slots_exclusive_reused :
    ∃ s, s.pc 1 = .serving ∧ s.slot 1 = 0 ∧ SlotsExclusive s := by
  obtain ⟨s, reached, served⟩ := exists_reachableIf_of_runIf Server.step State.initial ReadsOwnFlag
    [[.connect, .main, .main, .create 0], List.replicate 5 (.client 0),
      [.connect, .main, .main, .main, .create 0]].flatten
    (fun s => decide (s.pc 1 = .serving ∧ s.slot 1 = 0)) (by decide +kernel)
  obtain ⟨serving, inSlot⟩ := of_decide_eq_true served
  exact ⟨s, serving, inSlot, (client_slots_exclusive_iff reached).1⟩

/-- Client 0 leaves, clears flag 0 and tests it again after `main` has claimed slot 0 for
client 1. -/
def rereadFlag : List Label :=
  [[.connect, .main, .main, .create 0], List.replicate 4 (.client 0), [.connect, .main],
    List.replicate 3 (.client 0), [.main, .main, .create 0]].flatten

theorem cleared_flag_of_next_client :
    ¬ ∀ s, Reachable Server.step State.initial s → SlotsExclusive s := by
  intro exclusive
  obtain ⟨s, reached, shared⟩ := exists_reachable_of_run Server.step State.initial rereadFlag
    (fun s => decide (s.pc 1 = .serving ∧ s.flags (s.slot 1) = false)) (by decide +kernel)
  obtain ⟨serving, clear⟩ := of_decide_eq_true shared
  have held := (exclusive s reached).held 1 serving
  rw [clear] at held
  cases held

end Facts

end BitcoinServer.Server
