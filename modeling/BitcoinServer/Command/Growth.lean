import BitcoinServer.Command.Segmentation

/-!
Contract: whether `recieved_string` can grow as far as the input makes it.

`join_client_command` doubles `str_len`, an `int`, without a limit, and `get_command` copies
by `str_len` and not by `used_len`. A buffer of `2 ^ 30` bytes cannot be doubled: `str_len`
wraps around to a negative number and then to 0, where the loop stays.

Owns the exact set of runs in which every join finds its room and every copy stays inside its
buffer: those whose lines never outgrow `2 ^ 30` bytes.
-/

namespace BitcoinServer.Command

open CText

/-! ## The doubling loop -/

/-- `str_len` after this many doublings. -/
def strLenAfter : Nat → Int → Int
  | 0, strLen => strLen
  | rounds + 1, strLen => strLenAfter rounds (wrap (strLen * 2))

theorem strLenAfter_double (rounds : Nat) (strLen : Int) :
    strLenAfter (rounds + 1) strLen = strLenAfter rounds (wrap (strLen * 2)) := rfl

/-- Rounds of the loop are doublings, for as long as `str_len` is short. -/
theorem growLoop_eq_none_iff (recv : RecvBuffer) (needed : Int) (rounds : Nat) :
    growLoop recv needed rounds = none ↔ ∀ n ≤ rounds, strLenAfter n recv.strLen < needed := by
  induction rounds generalizing recv with
  | zero =>
      rw [growLoop]
      split
      next short =>
        refine iff_of_true rfl fun n start => ?_
        rw [Nat.le_zero.mp start]
        exact short
      next enough =>
        exact iff_of_false (Option.some_ne_none recv) fun all => enough (all 0 (Nat.le_refl 0))
  | succ rounds inductionHypothesis =>
      rw [growLoop]
      split
      next short =>
        rw [inductionHypothesis]
        constructor
        · intro later n inside
          cases n with
          | zero => exact short
          | succ n => exact later n (Nat.le_of_succ_le_succ inside)
        · intro all n inside
          exact all (n + 1) (Nat.succ_le_succ inside)
      next enough =>
        exact iff_of_false (Option.some_ne_none recv) fun all => enough (all 0 (Nat.zero_le _))

theorem wrap_mul (value factor : Int) : wrap (wrap value * factor) = wrap (value * factor) :=
  Int.bmod_mul_bmod

theorem strLenAfter_succ (rounds : Nat) (strLen : Int) :
    strLenAfter (rounds + 1) strLen = wrap (strLen * 2 ^ (rounds + 1)) := by
  induction rounds generalizing strLen with
  | zero => rfl
  | succ rounds inductionHypothesis =>
      rw [strLenAfter_double, inductionHypothesis, wrap_mul, Int.mul_assoc, Int.mul_comm 2,
        ← Int.pow_succ]

/-- After 32 doublings nothing is left of `str_len`. -/
theorem strLenAfter_zero {rounds : Nat} (many : 32 ≤ rounds) (strLen : Int) :
    strLenAfter rounds strLen = 0 := by
  obtain ⟨more, rfl⟩ := Nat.exists_eq_add_of_le many
  rw [show 32 + more = 31 + more + 1 by omega, strLenAfter_succ,
    show 31 + more + 1 = more + 32 by omega, Int.pow_add, ← Int.mul_assoc]
  exact Int.mul_bmod_left _ _

/-- The loop ends exactly where some number of doublings reaches what is needed: the model's 32
rounds are no bound. -/
theorem growLoop_ends_iff (recv : RecvBuffer) (needed : Int) :
    (∃ grown, growLoop recv needed 32 = some grown) ↔
      ∃ rounds, needed ≤ strLenAfter rounds recv.strLen := by
  rw [← Option.ne_none_iff_exists', Ne, growLoop_eq_none_iff]
  constructor
  · intro some
    by_contra never
    apply some
    intro n _
    by_contra enough
    exact never ⟨n, Int.not_lt.mp enough⟩
  · rintro ⟨rounds, enough⟩ short
    by_cases few : rounds ≤ 32
    · exact Int.not_lt.mpr enough (short rounds few)
    · have last := short 32 (Nat.le_refl 32)
      rw [strLenAfter_zero (Nat.le_refl 32)] at last
      rw [strLenAfter_zero (by omega)] at enough
      omega

/-! ## What a read asks of the buffer -/

/-- `*used_len + cmd_len + 1`. -/
def needed (recv : RecvBuffer) (chunk : Chunk) : Int :=
  wrap (wrap (recv.usedLen + chunk.eff.length) + 1)

/-- A buffer that the loop over `get_command` comes to. -/
inductive Drained : RecvBuffer → RecvBuffer → Prop where
  | start (recv : RecvBuffer) : Drained recv recv
  | command {recv passed rest : RecvBuffer} {cmd : Cells} (earlier : Drained recv passed)
      (found : getCommand passed = some (some (cmd, rest))) : Drained recv rest

/-- The buffer has `str_len` bytes, and the copy that `get_command` makes of what stands behind
a command stays inside it and inside the new one. -/
def CopyInside (recv : RecvBuffer) : Prop :=
  ∀ i, findCommand recv = some i → (recv.cells.length : Int) = recv.strLen ∧
    0 ≤ recv.strLen - i - 2 ∧ i + 2 + (recv.strLen - i - 2) ≤ recv.cells.length ∧
    recv.strLen - i - 2 ≤ (malloc recv.strLen).length

/-- The buffer grows as far as one read makes it, and the commands come out of it. -/
structure GrowthSucceeds (recv : RecvBuffer) (chunk : Chunk) : Prop where
  ends : ∃ rounds, needed recv chunk ≤ strLenAfter rounds recv.strLen
  noOverflow : ∀ rounds, (∀ n ≤ rounds, strLenAfter n recv.strLen < needed recv chunk) →
    -2 ^ 31 ≤ strLenAfter rounds recv.strLen * 2 ∧ strLenAfter rounds recv.strLen * 2 < 2 ^ 31
  joined : ∃ joined, joinClientCommand recv chunk.buffer = some joined ∧
    (joined.cells.length : Int) = joined.strLen ∧ joined.usedLen + 1 ≤ joined.strLen ∧
    ∀ passed, Drained joined passed → CopyInside passed

/-- So does it at every read of a run. -/
def GrowthAlways (chunks : List Chunk) : Prop :=
  ∀ k chunk, chunks[k]? = some chunk →
    ∃ s, receiveRounds (.initial chunks) k = some s ∧ GrowthSucceeds s.recv chunk

/-! ## Reads that find their room -/

section Read

variable {recv : RecvBuffer} {bytes : List UInt8} {chunk : Chunk}

/-- While it is short, `str_len` is a power of two that can be doubled. -/
theorem strLenAfter_power {strLen limit : Int} (bounded : limit ≤ 2 ^ 30)
    (power : ∃ k ≤ 30, strLen = 2 ^ k) (rounds : Nat)
    (short : ∀ n ≤ rounds, strLenAfter n strLen < limit) :
    ∃ k < 30, strLenAfter rounds strLen = 2 ^ k := by
  induction rounds generalizing strLen with
  | zero =>
      obtain ⟨k, -, rfl⟩ := power
      exact ⟨k, lt_of_two_pow_lt bounded (short 0 (Nat.le_refl 0)), rfl⟩
  | succ rounds inductionHypothesis =>
      obtain ⟨k, -, rfl⟩ := power
      have first : (2 : Int) ^ k < limit := short 0 (Nat.zero_le _)
      have small := lt_of_two_pow_lt bounded first
      rw [strLenAfter_double, wrap_two_pow small]
      refine inductionHypothesis ⟨k + 1, small, rfl⟩ fun n inside => ?_
      have later := short (n + 1) (Nat.succ_le_succ inside)
      rw [strLenAfter_double, wrap_two_pow small] at later
      exact later

/-- The loop ends with enough room. -/
theorem room_of_growLoop {limit : Int} (rounds : Nat) {grown : RecvBuffer}
    (ended : growLoop recv limit rounds = some grown) : limit ≤ grown.strLen := by
  induction rounds generalizing recv with
  | zero =>
      rw [growLoop] at ended
      split at ended
      next => contradiction
      next enough =>
        rw [← Option.some.inj ended]
        exact Int.not_lt.mp enough
  | succ rounds inductionHypothesis =>
      rw [growLoop] at ended
      split at ended
      next => exact inductionHypothesis ended
      next enough =>
        rw [← Option.some.inj ended]
        exact Int.not_lt.mp enough

/-- A join is a doubling loop that ended. -/
theorem grown_of_joinClientCommand {joined : RecvBuffer}
    (join : joinClientCommand recv chunk.buffer = some joined) :
    ∃ grown, growLoop recv (needed recv chunk) 32 = some grown ∧
      joined.strLen = grown.strLen := by
  unfold joinClientCommand at join
  rw [readString_buffer] at join
  change (growLoop recv (needed recv chunk) 32).bind _ = _ at join
  obtain ⟨grown, ended, join⟩ := Option.bind_eq_some_iff.mp join
  obtain ⟨cells, _, join⟩ := Option.bind_eq_some_iff.mp join
  exact ⟨grown, ended, (congrArg RecvBuffer.strLen (Option.some.inj join)).symm⟩

theorem copyInside_of_holds (holds : Holds recv bytes) : CopyInside recv := by
  intro i found
  rw [findCommand_holds holds] at found
  obtain ⟨⟨front, back⟩, cut, rfl⟩ := Option.map_eq_some_iff.mp found
  obtain ⟨junk, -, -, size⟩ := cells_of_cut holds cut
  have strLen := holds.strLen
  have room : (malloc recv.strLen).length = recv.strLen.toNat := List.length_replicate
  rw [room]
  show _ ∧ 0 ≤ recv.strLen - front.length - 2 ∧ _
  omega

/-- Taking commands out leaves a buffer that holds the bytes behind them. -/
theorem holds_of_drained {passed : RecvBuffer} (drained : Drained recv passed)
    (holds : Holds recv bytes) : ∃ left, Holds passed left := by
  induction drained with
  | start => exact ⟨bytes, holds⟩
  | command earlier found inductionHypothesis =>
      obtain ⟨left, leftHolds⟩ := inductionHypothesis
      cases cut : LineSplit.cut 13 10 left with
      | none =>
          rw [getCommand_of_none leftHolds cut] at found
          exact nomatch Option.some.inj found
      | some parts =>
          obtain ⟨cmd, rest, taken, -, restHolds⟩ := getCommand_of_cut leftHolds cut
          rw [taken] at found
          obtain ⟨-, rfl⟩ := Prod.mk.inj (Option.some.inj (Option.some.inj found))
          exact ⟨parts.2, restHolds⟩

theorem growthSucceeds_of_holds (holds : Holds recv bytes)
    (bounded : bytes.length + chunk.eff.length < 2 ^ 30) : GrowthSucceeds recv chunk := by
  have usedLen := holds.usedLen
  have exactly : needed recv chunk = recv.usedLen + chunk.eff.length + 1 :=
    wrap_needed holds chunk (by omega)
  obtain ⟨joined, join, joinedHolds⟩ := joinClientCommand_holds holds chunk bounded
  obtain ⟨grown, ended, sameSize⟩ := grown_of_joinClientCommand join
  refine ⟨(growLoop_ends_iff recv _).mp ⟨grown, ended⟩, ?_, joined, join, ?_⟩
  · intro rounds short
    obtain ⟨k, small, power⟩ := strLenAfter_power (by omega) holds.power rounds short
    have upper : (2 : Int) ^ (k + 1) ≤ 2 ^ 30 := pow_le_pow_right₀ (by decide) small
    have positive : (0 : Int) < 2 ^ (k + 1) := Int.pow_pos (by decide)
    rw [power, ← Int.pow_succ]
    omega
  · refine ⟨joinedHolds.strLen.symm, ?_, ?_⟩
    · have room := room_of_growLoop 32 ended
      have joinedUsed := joinedHolds.usedLen
      rw [List.length_append] at joinedUsed
      omega
    · intro passed drained
      obtain ⟨left, leftHolds⟩ := holds_of_drained drained joinedHolds
      exact copyInside_of_holds leftHolds

end Read

/-! ## Runs -/

/-- A run in which every read finds its room never outgrows the buffer. -/
theorem staysSmall_of_growthAlways {chunks : List Chunk} (always : GrowthAlways chunks) :
    StaysSmall chunks := by
  intro k chunk present
  obtain ⟨s, reached, succeeds⟩ := always k chunk present
  obtain ⟨joined, join, -⟩ := succeeds.joined
  have inSequence : k < chunks.length := (List.getElem?_eq_some_iff.mp present).1
  obtain ⟨atHead, -⟩ := atHead_of_receiveRounds k (Nat.le_of_lt inSequence) reached
  by_contra outgrown
  rw [joinClientCommand_none atHead.retained chunk (Nat.not_lt.mp outgrown)] at join
  exact nomatch join

/-- Growth succeeds at every read exactly in the runs where the unterminated bytes stay small. -/
theorem growthAlways_iff (chunks : List Chunk) : GrowthAlways chunks ↔ StaysSmall chunks := by
  constructor
  · exact staysSmall_of_growthAlways
  · intro small k chunk present
    have inSequence : k < chunks.length := (List.getElem?_eq_some_iff.mp present).1
    obtain ⟨s, reached, atHead⟩ := receiveRounds_atHead small k (Nat.le_of_lt inSequence)
    exact ⟨s, reached, growthSucceeds_of_holds atHead.retained (small k chunk present)⟩

/-! ## An unterminated line -/

/-- A read that is full of one letter. -/
def fullChunk : Chunk :=
  ⟨List.replicate 255 65, List.cons_ne_nil _ _, Nat.le_of_eq List.length_replicate⟩

theorem eff_fullChunk : fullChunk.eff = List.replicate 255 65 := by
  apply cString_of_noNul
  intro byte member
  rw [(List.mem_replicate.mp member).2]
  decide

/-- Without a CR all that was received is retained. -/
theorem retained_fullChunks (reads : Nat) :
    (commands (received (List.replicate reads fullChunk))).2.length = reads * 255 := by
  have stream : received (List.replicate reads fullChunk) = List.replicate (reads * 255) 65 := by
    unfold received
    rw [List.flatMap_replicate, eff_fullChunk, List.flatten_replicate_replicate]
  have noLine : LineSplit.cut 13 10 (List.replicate (reads * 255) (65 : UInt8)) = none := by
    rw [LineSplit.cut_eq_none_iff]
    intro terminator
    have cr := List.eq_of_mem_replicate (terminator.subset List.mem_cons_self)
    exact absurd cr (by decide)
  unfold commands
  rw [stream, LineSplit.split_of_cut_none noLine, List.length_replicate]

/-- `2 ^ 30` bytes without a CR LF: the last of these reads never comes to an end. -/
theorem growthAlways_unterminated : ¬ ∀ chunks, GrowthAlways chunks := by
  intro always
  have small := staysSmall_of_growthAlways (always (List.replicate 4210753 fullChunk))
  have last := small 4210752 fullChunk (by rw [List.getElem?_replicate, if_pos (by omega)])
  rw [List.take_replicate, Nat.min_eq_left (by omega), retained_fullChunks, eff_fullChunk,
    List.length_replicate] at last
  omega

end BitcoinServer.Command
