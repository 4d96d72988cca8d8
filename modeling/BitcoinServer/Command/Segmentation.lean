import BitcoinServer.Command.Framing

/-!
Contract: how far the commands depend on the way a stream is cut into reads.

The read buffer passes through `strlen` on its way to `recieved_string`, so a read
loses its bytes from the first NUL on, while the same NUL in a read of its own takes
nothing with it. A buffer that would need more than `2 ^ 30` bytes is never found by
the doubling loop.

Owns the exact set of streams for which the cut points do not matter: no NUL has another
byte behind it, and no line together with one read outgrows the buffer.
-/

namespace BitcoinServer.Command

open CText

/-! ## Outgrown buffers -/

section Outgrown

variable {recv : RecvBuffer} {bytes : List UInt8}

/-- `str_len` as a power of two up to `2 ^ 30`, or what `int` makes of it after that. -/
def Doubling (strLen : Int) : Prop :=
  (∃ k ≤ 30, strLen = 2 ^ k) ∨ strLen = -2 ^ 31 ∨ strLen = 0

theorem Doubling.wrap {strLen : Int} (doubling : Doubling strLen) :
    Doubling (Command.wrap (strLen * 2)) := by
  rcases doubling with ⟨k, small, rfl⟩ | rfl | rfl
  · by_cases last : k = 30
    · rw [last]
      exact Or.inr (Or.inl (by decide))
    · rw [wrap_two_pow (by omega)]
      exact Or.inl ⟨k + 1, by omega, rfl⟩
  · exact Or.inr (Or.inr (by decide))
  · exact Or.inr (Or.inr (by decide))

theorem Doubling.le {strLen : Int} (doubling : Doubling strLen) : strLen ≤ 2 ^ 30 := by
  rcases doubling with ⟨k, small, rfl⟩ | rfl | rfl
  · exact pow_le_pow_right₀ (by decide) small
  · decide
  · decide

/-- The doubling loop never reaches more than `2 ^ 30` bytes. -/
theorem growLoop_none (needed : Int) (large : 2 ^ 30 < needed) (rounds : Nat)
    (doubling : Doubling recv.strLen) : growLoop recv needed rounds = none := by
  have short : recv.strLen < needed := Int.lt_of_le_of_lt doubling.le large
  induction rounds generalizing recv with
  | zero => rw [growLoop, if_pos short]
  | succ rounds inductionHypothesis =>
      rw [growLoop, if_pos short]
      exact inductionHypothesis doubling.wrap (Int.lt_of_le_of_lt doubling.wrap.le large)

theorem Chunk.length_eff (chunk : Chunk) : chunk.eff.length ≤ bufferLen - 1 :=
  Nat.le_trans (List.takeWhile_prefix _).length_le chunk.fits

/-- A read that outgrows the buffer does not come to an end. -/
theorem joinClientCommand_none (holds : Holds recv bytes) (chunk : Chunk)
    (outgrown : 2 ^ 30 ≤ bytes.length + chunk.eff.length) :
    joinClientCommand recv chunk.buffer = none := by
  obtain ⟨k, small, size⟩ := holds.power
  obtain ⟨junk, cells⟩ := holds.written
  have usedLen := holds.usedLen
  have strLen := holds.strLen
  have power : (2 : Int) ^ k ≤ 2 ^ 30 := pow_le_pow_right₀ (by decide) small
  have inside : bytes.length ≤ recv.cells.length := by
    rw [cells, List.length_append, List.length_map]
    omega
  have effective : chunk.eff.length ≤ 255 := chunk.length_eff
  have needed := wrap_needed holds chunk (by omega)
  unfold joinClientCommand
  rw [readString_buffer]
  show (growLoop recv (wrap (wrap (recv.usedLen + chunk.eff.length) + 1)) 32).bind _ = none
  rw [needed, growLoop_none _ (by omega) 32 (Or.inl ⟨k, small, size⟩)]
  rfl

end Outgrown

/-- A run that gets through its reads has never outgrown the buffer. -/
theorem atHead_of_receiveRounds {chunks : List Chunk} (k : Nat) (inSequence : k ≤ chunks.length)
    {s : Receive} (ran : receiveRounds (.initial chunks) k = some s) :
    AtHead s (chunks.take k) (chunks.drop k) ∧ ∀ j < k, ∀ chunk, chunks[j]? = some chunk →
      (commands (received (chunks.take j))).2.length + chunk.eff.length < 2 ^ 30 := by
  induction k generalizing s with
  | zero =>
      have start : StaysSmall [] := nofun
      obtain ⟨first, reached, atHead⟩ := receiveRounds_atHead start 0 (Nat.le_refl 0)
      have same : s = .initial chunks := (Option.some.inj ran).symm
      have empty : first = .initial [] := (Option.some.inj reached).symm
      subst same empty
      exact ⟨⟨rfl, atHead.dispatched, atHead.retained⟩, nofun⟩
  | succ k inductionHypothesis =>
      obtain ⟨before, earlier, round⟩ := Option.bind_eq_some_iff.mp ran
      obtain ⟨atHead, small⟩ := inductionHypothesis (by omega) earlier
      rw [List.drop_eq_getElem_cons inSequence] at atHead
      have bounded : (commands (received (chunks.take k))).2.length +
          chunks[k].eff.length < 2 ^ 30 := by
        by_contra outgrown
        have stuck := joinClientCommand_none atHead.retained chunks[k] (Nat.not_lt.mp outgrown)
        have nothing := hasCommand_holds atHead.retained (LineSplit.cut_remainder _ _ _)
        have noRead : readChunk before = none := by
          unfold readChunk
          rw [nothing, atHead.input_eq, if_neg (by decide)]
          simp only [stuck, Option.map_none]
        unfold receiveRound at round
        rw [noRead] at round
        exact nomatch round
      obtain ⟨next, same, nextAtHead⟩ := receiveRound_atHead atHead bounded
      rw [round] at same
      rw [List.take_succ_eq_append_getElem inSequence, Option.some.inj same]
      refine ⟨nextAtHead, ?_⟩
      intro j earlierThan chunk present
      rcases Nat.lt_succ_iff_lt_or_eq.mp earlierThan with old | rfl
      · exact small j old chunk present
      · rw [List.getElem?_eq_getElem inSequence] at present
        rw [← Option.some.inj present]
        exact bounded

theorem staysSmall_of_receiveRounds {chunks : List Chunk} {s : Receive}
    (ran : receiveRounds (.initial chunks) chunks.length = some s) : StaysSmall chunks := by
  intro k chunk present
  have inSequence : k < chunks.length := (List.getElem?_eq_some_iff.mp present).1
  exact (atHead_of_receiveRounds _ (Nat.le_refl _) ran).2 k inSequence chunk present

/-! ## Agreement of two runs -/

/-- The bytes that the buffer keeps for the next read. -/
def RecvBuffer.retained (recv : RecvBuffer) : Cells := recv.cells.take recv.usedLen.toNat

/-- The reads are the stream cut into pieces. -/
def Cuts (chunks : List Chunk) (stream : List UInt8) : Prop :=
  chunks.flatMap Chunk.bytes = stream

/-- However the stream is cut, the loop gets through its reads, dispatches the same
commands and retains the same bytes. -/
def SegmentationFree (stream : List UInt8) : Prop :=
  ∀ first second : List Chunk, Cuts first stream → Cuts second stream →
    ∃ s t, receiveRounds (.initial first) first.length = some s ∧
      receiveRounds (.initial second) second.length = some t ∧
      s.dispatched = t.dispatched ∧ s.recv.retained = t.recv.retained

/-- What a run has done is what the received bytes are cut into. -/
theorem receiveRounds_all {chunks : List Chunk} (small : StaysSmall chunks) :
    ∃ s, receiveRounds (.initial chunks) chunks.length = some s ∧
      s.dispatched = (commands (received chunks)).1 ∧
      s.recv.retained = (commands (received chunks)).2.map some := by
  obtain ⟨s, reached, -, -, dispatched, retained, -⟩ :=
    framing chunks small chunks.length (Nat.le_refl _)
  rw [List.take_length] at dispatched retained
  exact ⟨s, reached, dispatched, retained⟩

theorem segmentationFree_iff_received (stream : List UInt8) : SegmentationFree stream ↔
    ∀ first second, Cuts first stream → Cuts second stream →
      StaysSmall first ∧ received first = received second := by
  constructor
  · intro free first second cutsFirst cutsSecond
    obtain ⟨s, t, ranFirst, ranSecond, dispatched, retained⟩ :=
      free first second cutsFirst cutsSecond
    have smallFirst := staysSmall_of_receiveRounds ranFirst
    obtain ⟨s', reachedFirst, commandsFirst, restFirst⟩ := receiveRounds_all smallFirst
    obtain ⟨t', reachedSecond, commandsSecond, restSecond⟩ :=
      receiveRounds_all (staysSmall_of_receiveRounds ranSecond)
    rw [ranFirst] at reachedFirst
    rw [ranSecond] at reachedSecond
    rw [Option.some.inj reachedFirst, commandsFirst, Option.some.inj reachedSecond,
      commandsSecond] at dispatched
    rw [Option.some.inj reachedFirst, restFirst, Option.some.inj reachedSecond,
      restSecond] at retained
    have rest := List.map_injective_iff.mpr (Option.some_injective UInt8) retained
    refine ⟨smallFirst, ?_⟩
    rw [← LineSplit.join_split 13 10 (received first),
      ← LineSplit.join_split 13 10 (received second)]
    unfold commands at dispatched rest
    rw [dispatched, rest]
  · intro same first second cutsFirst cutsSecond
    obtain ⟨smallFirst, sameReceived⟩ := same first second cutsFirst cutsSecond
    obtain ⟨s, reachedFirst, commandsFirst, restFirst⟩ := receiveRounds_all smallFirst
    obtain ⟨t, reachedSecond, commandsSecond, restSecond⟩ :=
      receiveRounds_all (same second first cutsSecond cutsFirst).1
    refine ⟨s, t, reachedFirst, reachedSecond, ?_, ?_⟩
    · rw [commandsFirst, commandsSecond, sameReceived]
    · rw [restFirst, restSecond, sameReceived]

/-! ## Streams whose cut points do not matter -/

/-- A NUL has only NULs behind it. -/
def NulsTrail (stream : List UInt8) : Prop :=
  stream.Pairwise fun first later => first = 0 → later = 0

/-- At every position the unterminated bytes before it and those of one read behind it
are less than `2 ^ 30`. -/
def LinesFit (stream : List UInt8) : Prop :=
  ∀ p < (cString stream).length, (commands ((cString stream).take p)).2.length +
    (((cString stream).drop p).take (bufferLen - 1)).length < 2 ^ 30

theorem noNul_cString (stream : List UInt8) : ∀ byte ∈ cString stream, byte ≠ 0 := by
  intro byte member
  simpa using List.mem_takeWhile_imp member

theorem cString_of_noNul {bytes : List UInt8} (noNul : ∀ byte ∈ bytes, byte ≠ 0) :
    cString bytes = bytes :=
  List.takeWhile_eq_self_iff.mpr (by simpa using noNul)

theorem cString_append {first second : List UInt8} (trail : NulsTrail (first ++ second)) :
    cString (first ++ second) = cString first ++ cString second := by
  induction first with
  | nil => rfl
  | cons byte first inductionHypothesis =>
      obtain ⟨later, trail⟩ := List.pairwise_cons.mp trail
      by_cases nul : byte = 0
      · have nothing : cString second = [] := by
          match second, later with
          | [], _ => rfl
          | other :: _, later =>
              have zero : other = 0 := later other (by simp) nul
              rw [cString, zero]
              rfl
        rw [nothing, nul]
        rfl
      · have keeps : ∀ bytes, cString (byte :: bytes) = byte :: cString bytes := fun bytes =>
          List.takeWhile_cons_of_pos (by simpa using nul)
        rw [List.cons_append, keeps, keeps, inductionHypothesis trail]
        rfl

/-- Where NULs trail, every way of cutting lets the same bytes through. -/
theorem received_of_nulsTrail {chunks : List Chunk} {stream : List UInt8}
    (trail : NulsTrail stream) (cuts : Cuts chunks stream) : received chunks = cString stream := by
  subst cuts
  induction chunks with
  | nil => rfl
  | cons chunk chunks inductionHypothesis =>
      rw [List.flatMap_cons] at trail ⊢
      have behind := (List.pairwise_append.mp trail).2.1
      rw [cString_append trail, ← inductionHypothesis behind]
      rfl

theorem remainder_of_linesFit {stream : List UInt8} (fits : LinesFit stream) (p : Nat)
    (inside : p ≤ (cString stream).length) :
    (commands ((cString stream).take p)).2.length < 2 ^ 30 := by
  cases p with
  | zero =>
      rw [List.take_zero, show commands [] = ([], []) from LineSplit.split_of_cut_none rfl]
      decide
  | succ p =>
      have before := fits p inside
      have portion := LineSplit.length_remainder 13 10
        ((LineSplit.split 13 10 ((cString stream).take p)).2 ++ [(cString stream)[p]])
      have next : 0 < (((cString stream).drop p).take (bufferLen - 1)).length := by
        rw [List.length_take, List.length_drop, bufferLen]
        omega
      unfold commands at before ⊢
      rw [List.length_append, List.length_singleton] at portion
      rw [List.take_succ_eq_append_getElem inside, LineSplit.split_append]
      show (LineSplit.split 13 10 _).2.length < _
      omega

/-- Where the lines fit, no way of cutting outgrows the buffer. -/
theorem staysSmall_of_linesFit {chunks : List Chunk} {stream : List UInt8}
    (trail : NulsTrail stream) (fits : LinesFit stream) (cuts : Cuts chunks stream) :
    StaysSmall chunks := by
  intro k chunk present
  have whole := received_split present
  rw [received_of_nulsTrail trail cuts] at whole
  have length := congrArg List.length whole
  rw [List.length_append, List.length_append] at length
  have seen : received (chunks.take k) =
      (cString stream).take (received (chunks.take k)).length := by
    rw [whole, List.take_left]
  have short := chunk.length_eff
  rw [seen]
  by_cases nothing : chunk.eff.length = 0
  · rw [nothing]
    exact remainder_of_linesFit fits _ (by omega)
  · have room := fits (received (chunks.take k)).length (by omega)
    rw [List.length_take, List.length_drop] at room
    omega

/-! ## Streams whose cut points matter -/

/-- One byte a read. -/
def singles (stream : List UInt8) : List Chunk :=
  stream.map fun byte => ⟨[byte], List.cons_ne_nil _ _, Nat.le_add_left 1 254⟩

theorem cuts_singles (stream : List UInt8) : Cuts (singles stream) stream := by
  unfold Cuts singles
  rw [List.flatMap_map]
  exact List.flatMap_singleton' stream

theorem received_singles (stream : List UInt8) :
    received (singles stream) = stream.filter (· ≠ 0) := by
  induction stream with
  | nil => rfl
  | cons byte stream inductionHypothesis =>
      show cString [byte] ++ received (singles stream) = _
      rw [inductionHypothesis]
      by_cases nul : byte = 0
      · simp [cString, nul]
      · simp [cString, nul]

/-- Around one read of its own. -/
theorem cuts_around (front back : List UInt8) (chunk : Chunk) :
    Cuts (singles front ++ chunk :: singles back) (front ++ (chunk.bytes ++ back)) := by
  have cutsFront := cuts_singles front
  have cutsBack := cuts_singles back
  unfold Cuts at cutsFront cutsBack ⊢
  rw [List.flatMap_append, List.flatMap_cons, cutsFront, cutsBack]

/-- A NUL that does not trail has another byte right behind it somewhere. -/
theorem exists_nul_pair {stream : List UInt8} (stray : ¬ NulsTrail stream) :
    ∃ front byte back, stream = front ++ ([0, byte] ++ back) ∧ byte ≠ 0 := by
  induction stream with
  | nil => exact absurd List.Pairwise.nil stray
  | cons first stream inductionHypothesis =>
      by_cases trail : NulsTrail stream
      · have broken : ¬ ∀ later ∈ stream, first = 0 → later = 0 := fun all =>
          stray (List.pairwise_cons.mpr ⟨all, trail⟩)
        match stream, trail with
        | [], _ => exact absurd nofun broken
        | second :: stream, trail =>
            have later := (List.pairwise_cons.mp trail).1
            by_cases pair : first = 0 ∧ second ≠ 0
            · exact ⟨[], second, stream, by rw [pair.1]; rfl, pair.2⟩
            · apply absurd _ broken
              intro byte member nul
              have zero : second = 0 := by
                by_contra other
                exact pair ⟨nul, other⟩
              rcases List.mem_cons.mp member with rfl | behind
              · exact zero
              · exact later byte behind zero
      · obtain ⟨front, byte, back, same, other⟩ := inductionHypothesis trail
        exact ⟨first :: front, byte, back, by rw [same]; rfl, other⟩

/-- A read that takes such a pair loses the second byte, reads of one byte do not. -/
theorem received_nul_pair (front back : List UInt8) {byte : UInt8} (other : byte ≠ 0) :
    ∃ first second, Cuts first (front ++ ([0, byte] ++ back)) ∧
      Cuts second (front ++ ([0, byte] ++ back)) ∧ received first ≠ received second := by
  let pair : Chunk := ⟨[0, byte], List.cons_ne_nil _ _, Nat.le_add_left 2 253⟩
  refine ⟨singles (front ++ ([0, byte] ++ back)), singles front ++ pair :: singles back,
    cuts_singles _, cuts_around front back pair, ?_⟩
  intro same
  have lengths := congrArg List.length same
  have lost : pair.eff = [] := rfl
  have parts : received (singles front ++ pair :: singles back) =
      received (singles front) ++ (pair.eff ++ received (singles back)) := by
    unfold received
    rw [List.flatMap_append, List.flatMap_cons]
  rw [parts, lost, received_singles, received_singles, received_singles] at lengths
  simp [other] at lengths

/-- A line that does not fit outgrows the buffer when one read ends before the critical
position and the next one takes all that it can. -/
theorem exists_outgrown {stream : List UInt8} (wide : ¬ LinesFit stream) :
    ∃ chunks, Cuts chunks stream ∧ ¬ StaysSmall chunks := by
  have critical : ∃ p, p < (cString stream).length ∧
      ¬ (commands ((cString stream).take p)).2.length +
        (((cString stream).drop p).take (bufferLen - 1)).length < 2 ^ 30 := by
    by_contra none
    apply wide
    intro p inside
    by_contra outgrown
    exact none ⟨p, inside, outgrown⟩
  obtain ⟨p, inside, outgrown⟩ := critical
  let piece := ((cString stream).drop p).take (bufferLen - 1)
  have length : piece.length = min 255 ((cString stream).length - p) := by
    rw [List.length_take, List.length_drop]
    rfl
  have nonempty : piece ≠ [] := by
    intro empty
    rw [empty, List.length_nil] at length
    omega
  let chunk : Chunk := ⟨piece, nonempty, List.length_take_le _ _⟩
  obtain ⟨hidden, whole⟩ : cString stream <+: stream := List.takeWhile_prefix _
  let rest := ((cString stream).drop p).drop (bufferLen - 1) ++ hidden
  have noNul := noNul_cString stream
  have spelled : stream = (cString stream).take p ++ (piece ++ rest) := by
    rw [← List.append_assoc piece, List.take_append_drop, ← List.append_assoc,
      List.take_append_drop, whole]
  refine ⟨singles ((cString stream).take p) ++ chunk :: singles rest, ?_, ?_⟩
  · have cuts := cuts_around ((cString stream).take p) rest chunk
    rwa [← spelled] at cuts
  · intro small
    have before : (singles ((cString stream).take p)).length = p := by
      unfold singles
      rw [List.length_map, List.length_take]
      omega
    have atP := small p chunk (by rw [List.getElem?_append_right (by omega), before]; simp)
    have seen : received (singles ((cString stream).take p)) = (cString stream).take p := by
      rw [received_singles, List.filter_eq_self]
      intro byte member
      simpa using noNul byte (List.mem_of_mem_take member)
    have effective : chunk.eff = piece := cString_of_noNul fun byte member =>
      noNul byte (List.mem_of_mem_drop (List.mem_of_mem_take member))
    rw [List.take_left' before, seen, effective] at atP
    exact outgrown atP

/-- The cut points do not matter exactly where no NUL hides another byte and the lines
fit. -/
theorem segmentationFree_iff (stream : List UInt8) :
    SegmentationFree stream ↔ NulsTrail stream ∧ LinesFit stream := by
  rw [segmentationFree_iff_received]
  constructor
  · intro same
    constructor
    · by_contra stray
      obtain ⟨front, byte, back, rfl, other⟩ := exists_nul_pair stray
      obtain ⟨first, second, cutsFirst, cutsSecond, differ⟩ := received_nul_pair front back other
      exact differ (same first second cutsFirst cutsSecond).2
    · by_contra wide
      obtain ⟨chunks, cuts, outgrown⟩ := exists_outgrown wide
      exact outgrown (same chunks chunks cuts cuts).1
  · intro condition first second cutsFirst cutsSecond
    obtain ⟨trail, fits⟩ := condition
    refine ⟨staysSmall_of_linesFit trail fits cutsFirst, ?_⟩
    rw [received_of_nulsTrail trail cutsFirst, received_of_nulsTrail trail cutsSecond]

/-- `A`, a NUL, `B` and CR LF. -/
def nulInside : List UInt8 := [65, 0, 66, 13, 10]

/-- One read gives no command, five reads give `AB`. -/
theorem nulInside_depends : ¬ SegmentationFree nulInside := by
  intro free
  obtain ⟨first, second, cutsFirst, cutsSecond, differ⟩ :=
    received_nul_pair [65] [13, 10] (by decide : (66 : UInt8) ≠ 0)
  exact differ ((segmentationFree_iff_received nulInside).mp free first second cutsFirst
    cutsSecond).2

end BitcoinServer.Command
