import BitcoinServer.Solution.Block
import BitcoinServer.Solution.Sha256

/-!
Contract: the hash that `sha256_init`, `sha256_update` and `sha256_final` take
of a message, and `is_valid_soln` on it.

A context stands for the bytes that it has been given, however they were cut
into calls and whatever memory held before.

Owns the invariant of a context, the digest of a stream of calls, the lengths
for which `sha256_update` returns, the reduction of a collision of digests to
one of `sha256_transform`, and the verdict with the hash computed in place.
-/

namespace BitcoinServer.Solution

open SecureHash (Chain Word)

/-! ## A context -/

/-- A context that has been given the bytes of a message. -/
structure Absorbed (ctx : Sha256Ctx) (message : List UInt8) : Prop where
  datalen : ctx.datalen.toNat = message.length % 64
  data : ctx.data.toList.take (message.length % 64) = BlockHash.rest 64 message
  bitlen : ctx.bitlen.toNat = 512 * (message.length / 64) % 2 ^ 64
  state : chainOf ctx.state =
    (BlockHash.blocks 64 message).foldl SecureHash.compress SecureHash.initialChain

theorem absorbed_sha256Init (ctx : Sha256Ctx) : Absorbed (sha256Init ctx) [] where
  datalen := rfl
  data := rfl
  bitlen := rfl
  state := chainOf_initialState

/-- What `updateByte` leaves in `data`, up to the byte that it writes. -/
theorem take_set_succ {bytes : List UInt8} {i : Nat} (inside : i < bytes.length) (byte : UInt8) :
    (bytes.set i byte).take (i + 1) = bytes.take i ++ [byte] := by
  rw [List.take_set, List.take_succ_eq_append_getElem inside, List.set_append_right _ _ (by
    rw [List.length_take]; omega), List.length_take, Nat.min_eq_left inside.le, Nat.sub_self]
  rfl

/-- One more byte: the block is transformed when it is full. -/
theorem Absorbed.updateByte {ctx : Sha256Ctx} {message : List UInt8}
    (absorbed : Absorbed ctx message) (byte : UInt8) :
    Absorbed (updateByte ctx byte) (message ++ [byte]) := by
  have below : message.length % 64 < 64 := Nat.mod_lt _ (by decide)
  have longer : (message ++ [byte]).length = message.length + 1 := List.length_append
  have nextLen : (ctx.datalen + 1).toNat = message.length % 64 + 1 := by
    rw [UInt32.toNat_add, absorbed.datalen]
    show (message.length % 64 + 1) % 2 ^ 32 = _
    omega
  have written : (ctx.data.set! ctx.datalen.toNat byte).toList.take (message.length % 64 + 1) =
      BlockHash.rest 64 message ++ [byte] := by
    rw [Vector.toList_set!, absorbed.datalen, take_set_succ (by rw [Vector.length_toList]; omega),
      absorbed.data]
  have blocks := BlockHash.blocks_append_data (by decide : 0 < 64) message [byte]
  have rest := BlockHash.rest_append_data (by decide : 0 < 64) message [byte]
  have partLength : (BlockHash.rest 64 message ++ [byte]).length = message.length % 64 + 1 := by
    rw [List.length_append, BlockHash.length_rest, List.length_singleton]
  by_cases full : ctx.datalen + 1 = 64
  · have last : message.length % 64 + 1 = 64 := by
      rw [← nextLen, full]
      rfl
    have block : (ctx.data.set! ctx.datalen.toNat byte).toList =
        BlockHash.rest 64 message ++ [byte] := by
      rw [← written, last, List.take_of_length_le (by rw [Vector.length_toList])]
    rw [last] at partLength
    have aligned : (message ++ [byte]).length % 64 = 0 := by
      rw [longer]
      omega
    rw [BlockHash.blocks_of_full (by decide) partLength] at blocks
    rw [BlockHash.rest_of_full (by decide) partLength] at rest
    unfold Solution.updateByte
    simp only [full, if_true]
    refine ⟨by rw [aligned]; rfl, by rw [aligned, rest]; rfl, ?bitlen, ?state⟩
    case bitlen =>
      show (ctx.bitlen + 512).toNat = _
      rw [UInt64.toNat_add, absorbed.bitlen, longer]
      show (512 * (message.length / 64) % 2 ^ 64 + 512) % 2 ^ 64 = _
      omega
    case state =>
      rw [blocks, List.foldl_append, ← absorbed.state, ← block]
      exact chainOf_sha256Transform _ Vector.length_toList
  · have notLast : message.length % 64 + 1 < 64 := by
      have different : (ctx.datalen + 1).toNat ≠ 64 := fun same =>
        full (UInt32.toNat_inj.mp same)
      omega
    have part : (message ++ [byte]).length % 64 = message.length % 64 + 1 := by
      rw [longer]
      omega
    have short : (BlockHash.rest 64 message ++ [byte]).length < 64 := by
      rw [partLength]
      exact notLast
    rw [BlockHash.blocks_of_short short, List.append_nil] at blocks
    rw [BlockHash.rest_of_short short] at rest
    unfold Solution.updateByte
    simp only [full, if_false]
    refine ⟨by rw [part]; exact nextLen, by rw [part, rest]; exact written, ?bitlen, ?state⟩
    case bitlen =>
      rw [longer]
      show ctx.bitlen.toNat = _
      rw [absorbed.bitlen]
      omega
    case state =>
      rw [blocks]
      exact absorbed.state

/-- The bytes that are left go into the context one by one. -/
theorem Absorbed.foldl_updateByte {ctx : Sha256Ctx} {message : List UInt8}
    (absorbed : Absorbed ctx message) (bytes : List UInt8) :
    Absorbed (bytes.foldl Solution.updateByte ctx) (message ++ bytes) := by
  induction bytes generalizing ctx message with
  | nil =>
      rw [List.append_nil]
      exact absorbed
  | cons byte bytes inductionHypothesis =>
      have further := inductionHypothesis (absorbed.updateByte byte)
      rwa [List.append_assoc] at further

/-! ## The loop of `sha256_update` -/

theorem toNat_toUInt64_lt_iff (i : UInt32) (len : UInt64) :
    i.toUInt64 < len ↔ i.toNat < len.toNat := by
  rw [UInt64.lt_iff_toNat_lt, UInt32.toNat_toUInt64]

/-- What a loop that ends has done. -/
theorem updateLoop_some {data : List UInt8} {len : UInt64} {left : Nat} {i : UInt32}
    (small : len.toNat < 2 ^ 32) (remain : i.toNat + left = len.toNat)
    (inside : len.toNat ≤ data.length) (more : Nat) (ctx : Sha256Ctx) :
    updateLoop data len (left + 1 + more) i ctx =
      some (((data.drop i.toNat).take left).foldl updateByte ctx) := by
  induction left generalizing i ctx with
  | zero =>
      have ended : ¬ i.toUInt64 < len := by
        rw [toNat_toUInt64_lt_iff]
        omega
      rw [show 0 + 1 + more = more + 1 by omega, updateLoop, if_neg ended, List.take_zero]
      rfl
  | succ left inductionHypothesis =>
      have goesOn : i.toUInt64 < len := by
        rw [toNat_toUInt64_lt_iff]
        omega
      have next : (i + 1).toNat = i.toNat + 1 := by
        rw [UInt32.toNat_add]
        show (i.toNat + 1) % 2 ^ 32 = _
        omega
      have inData : i.toNat < data.length := by omega
      have byte : data.getD i.toNat 0 = data[i.toNat] := by
        rw [List.getD_eq_getElem?_getD, List.getElem?_eq_getElem inData, Option.getD_some]
      rw [show left + 1 + 1 + more = left + 1 + more + 1 by omega, updateLoop, if_pos goesOn,
        inductionHypothesis (by rw [next]; omega), next, byte,
        List.drop_eq_getElem_cons inData, List.take_succ_cons, List.foldl_cons]

/-- The counter of a loop over more bytes than it counts never gets there. -/
theorem updateLoop_none {len : UInt64} (large : 2 ^ 32 ≤ len.toNat) (data : List UInt8)
    (fuel : Nat) (i : UInt32) (ctx : Sha256Ctx) : updateLoop data len fuel i ctx = none := by
  induction fuel generalizing i ctx with
  | zero => rfl
  | succ fuel inductionHypothesis =>
      have goesOn : i.toUInt64 < len := by
        rw [toNat_toUInt64_lt_iff]
        exact Nat.lt_of_lt_of_le i.toNat_lt large
      rw [updateLoop, if_pos goesOn]
      exact inductionHypothesis _ _

theorem updateLoop_mono {data : List UInt8} {len : UInt64} {fuel : Nat} {i : UInt32}
    {ctx next : Sha256Ctx} (returned : updateLoop data len fuel i ctx = some next) (more : Nat) :
    updateLoop data len (fuel + more) i ctx = some next := by
  induction fuel generalizing i ctx with
  | zero => exact absurd returned.symm (Option.some_ne_none next)
  | succ fuel inductionHypothesis =>
      rw [Nat.add_right_comm, updateLoop]
      rw [updateLoop] at returned
      by_cases goesOn : i.toUInt64 < len
      · rw [if_pos goesOn] at returned ⊢
        exact inductionHypothesis returned
      · rw [if_neg goesOn] at returned ⊢
        exact returned

theorem sha256Update_eq {data : List UInt8} {len : UInt64} (small : len.toNat < 2 ^ 32)
    (inside : len.toNat ≤ data.length) (ctx : Sha256Ctx) :
    sha256Update ctx data len = some ((data.take len.toNat).foldl updateByte ctx) :=
  updateLoop_some small (i := 0) (Nat.zero_add _) inside 0 ctx

theorem Absorbed.sha256Update {ctx : Sha256Ctx} {message bytes : List UInt8}
    (absorbed : Absorbed ctx message) (small : bytes.length < 2 ^ 32) :
    ∃ next, sha256Update ctx bytes (UInt64.ofNat bytes.length) = some next ∧
      Absorbed next (message ++ bytes) := by
  have len : (UInt64.ofNat bytes.length).toNat = bytes.length := by
    rw [UInt64.toNat_ofNat']
    omega
  have updated := sha256Update_eq (len.symm ▸ small) (Nat.le_of_eq len) ctx
  rw [len, List.take_length] at updated
  exact ⟨_, updated, absorbed.foldl_updateByte bytes⟩

/-! ## The end of a message -/

/-- The zeros stand behind what was there, and what stood behind them stays. -/
theorem toList_padZeros (data : Vector UInt8 64) {i stop : Nat} (ordered : i ≤ stop)
    (inside : stop ≤ 64) :
    (padZeros data i stop).toList =
      data.toList.take i ++ (List.replicate (stop - i) 0 ++ data.toList.drop stop) := by
  induction count : stop - i generalizing data i with
  | zero =>
      have same : i = stop := by omega
      unfold padZeros
      rw [count, same]
      exact (List.take_append_drop stop data.toList).symm
  | succ count' inductionHypothesis =>
      have inData : i < data.toList.length := by
        rw [Vector.length_toList]
        omega
      have later := inductionHypothesis (data.set! i 0) (i := i + 1) (by omega) (by omega)
      have unrolled : padZeros data i stop = padZeros (data.set! i 0) (i + 1) stop := by
        unfold padZeros
        rw [count, show stop - (i + 1) = count' by omega, List.range'_succ]
        rfl
      rw [unrolled, later, Vector.toList_set!, take_set_succ inData,
        List.drop_set_of_lt (by omega), List.replicate_succ, List.append_assoc]
      rfl

theorem ofNat_succ_eq_cons (count number : Nat) :
    BigEndian.ofNat (count + 1) number =
      UInt8.ofNat (number / 256 ^ count) :: BigEndian.ofNat count number := by
  induction count generalizing number with
  | zero =>
      rw [Nat.pow_zero, Nat.div_one]
      rfl
  | succ count inductionHypothesis =>
      rw [BigEndian.ofNat, inductionHypothesis, Nat.div_div_eq_div_mul, ← Nat.pow_succ',
        BigEndian.ofNat]
      rfl

/-- The assignments put the length into the last bytes, from the lowest one on. -/
theorem toList_putBitlen (data : Vector UInt8 64) (bitlen : UInt64) :
    (putBitlen data bitlen).toList = data.toList.take 56 ++ BigEndian.ofNat 8 bitlen.toNat := by
  have turns : ∀ count ≤ 8, ((List.range count).foldl
      (fun data n => data.set! (63 - n) (bitlen >>> UInt64.ofNat (8 * n)).toUInt8) data).toList =
      data.toList.take (64 - count) ++ BigEndian.ofNat count bitlen.toNat := by
    intro count inRange
    induction count with
    | zero =>
        rw [List.take_of_length_le (by rw [Vector.length_toList])]
        exact (List.append_nil _).symm
    | succ count inductionHypothesis =>
        have amount : (UInt64.ofNat (8 * count)).toNat % 64 = 8 * count := by
          rw [UInt64.toNat_ofNat']
          omega
        have byte : (bitlen >>> UInt64.ofNat (8 * count)).toUInt8 =
            UInt8.ofNat (bitlen.toNat / 256 ^ count) := by
          apply UInt8.toNat_inj.mp
          rw [UInt64.toNat_toUInt8, UInt64.toNat_shiftRight, amount, Nat.shiftRight_eq_div_pow,
            Nat.pow_mul, UInt8.toNat_ofNat']
        have before := inductionHypothesis (Nat.le_of_succ_le inRange)
        have place : 63 - count < (data.toList.take (64 - count)).length := by
          rw [List.length_take, Vector.length_toList]
          omega
        have inData : 63 - count < data.toList.length := by
          rw [Vector.length_toList]
          omega
        rw [List.range_succ, List.foldl_append, List.foldl_cons, List.foldl_nil,
          Vector.toList_set!, before, List.set_append_left _ _ place, ← List.take_set, byte,
          show 64 - count = 63 - count + 1 by omega, take_set_succ inData, ofNat_succ_eq_cons,
          List.append_assoc, show 64 - (count + 1) = 63 - count by omega]
        rfl
  exact turns 8 (Nat.le_refl 8)

theorem byte_putColumn (state : Vector UInt32 8) (hash : Uint256) {i p : Nat} (inWord : i < 4)
    (inHash : p < 32) :
    (putColumn state hash i).byte p =
      if p % 4 = i then hashByte state i (p / 4) else hash.byte p := by
  have rows : ∀ count ≤ 8,
      ((List.range count).foldl
        (fun hash j => hash.set (i + 4 * j) (hashByte state i j)) hash).byte p =
        if p % 4 = i ∧ p / 4 < count then hashByte state i (p / 4) else hash.byte p := by
    intro count inRange
    induction count with
    | zero =>
        rw [if_neg (by omega)]
        rfl
    | succ count inductionHypothesis =>
        have before := inductionHypothesis (Nat.le_of_succ_le inRange)
        rw [List.range_succ, List.foldl_append, List.foldl_cons, List.foldl_nil,
          Uint256.byte_set _ _ (by omega), before]
        by_cases here : p = i + 4 * count
        · rw [if_pos here, if_pos (by omega), show p / 4 = count by omega]
        · rw [if_neg here]
          exact if_congr (by omega) rfl rfl
  exact (rows 8 (Nat.le_refl 8)).trans (if_congr (by omega) rfl rfl)

/-- Each byte of the destination is a byte of one of the words. -/
theorem byte_putHash (state : Vector UInt32 8) (hash : Uint256) {p : Nat} (inHash : p < 32) :
    (putHash state hash).byte p = hashByte state (p % 4) (p / 4) := by
  have columns : ∀ count ≤ 4, ((List.range count).foldl (putColumn state) hash).byte p =
      if p % 4 < count then hashByte state (p % 4) (p / 4) else hash.byte p := by
    intro count inRange
    induction count with
    | zero =>
        rw [if_neg (by omega)]
        rfl
    | succ count inductionHypothesis =>
        have before := inductionHypothesis (Nat.le_of_succ_le inRange)
        rw [List.range_succ, List.foldl_append, List.foldl_cons, List.foldl_nil,
          byte_putColumn state _ (by omega) inHash, before]
        by_cases here : p % 4 = count
        · rw [if_pos here, if_pos (by omega), here]
        · rw [if_neg here]
          exact if_congr (by omega) rfl rfl
  exact (columns 4 (Nat.le_refl 4)).trans (if_pos (by omega))

theorem toNat_hashByte (state : Vector UInt32 8) {i : Nat} (inWord : i < 4) (j : Nat) :
    (hashByte state i j).toNat = (state.toList.getD j 0).toNat / 256 ^ (3 - i) % 256 := by
  have amount : (UInt32.ofNat (24 - i * 8)).toNat % 32 = 8 * (3 - i) := by
    rw [UInt32.toNat_ofNat']
    omega
  unfold hashByte
  rw [UInt32.toNat_toUInt8, UInt32.toNat_and, UInt32.toNat_shiftRight, amount,
    Nat.shiftRight_eq_div_pow, Nat.pow_mul]
  show ((state.toList.getD j 0).toNat / 256 ^ (3 - i) &&& 2 ^ 8 - 1) % 256 = _
  rw [Nat.and_two_pow_sub_one_eq_mod]
  exact Nat.mod_mod _ _

/-- The byte of a string of words. -/
theorem toNat_getD_words (words : List Word) {i : Nat} (inWord : i < 4) {j : Nat}
    (inWords : j < words.length) :
    ((words.flatMap fun word => BigEndian.ofNat 4 word.toNat).getD (4 * j + i) 0).toNat =
      (words.getD j 0).toNat / 256 ^ (3 - i) % 256 := by
  induction words generalizing j with
  | nil => exact absurd inWords (Nat.not_lt_zero j)
  | cons word words inductionHypothesis =>
      have four : (BigEndian.ofNat 4 word.toNat).length = 4 := BigEndian.length_ofNat 4 word.toNat
      rw [List.flatMap_cons]
      cases j with
      | zero =>
          have small : word.toNat < 256 ^ 4 := word.isLt
          have digit := BigEndian.toNat_getD (BigEndian.ofNat 4 word.toNat) (i := i)
            (by rw [four]; exact inWord)
          rw [four, BigEndian.toNat_ofNat_of_lt small] at digit
          rw [List.getD_append _ _ _ _ (by rw [four]; omega), Nat.mul_zero, Nat.zero_add, digit]
          rfl
      | succ j =>
          have behind := inductionHypothesis (Nat.lt_of_succ_lt_succ inWords)
          rw [List.getD_append_right _ _ _ _ (by rw [four]; omega), four,
            show 4 * (j + 1) + i - 4 = 4 * j + i by omega, behind]
          rfl

/-- The destination holds the words of the context, whatever it held before. -/
theorem putHash_bytes (state : Vector UInt32 8) (hash : Uint256) :
    (putHash state hash).bytes = (chainOf state).bytes := by
  have length : (chainOf state).bytes.length = 32 := (chainOf state).length_bytes
  have words : ∀ j < 8, (chainOf state).words.getD j 0 = (state.toList.getD j 0).toBitVec := by
    intro j inState
    interval_cases j <;> simp [chainOf, Chain.words]
  have same : putHash state hash = ⟨(chainOf state).bytes, length⟩ := by
    apply Uint256.ext_byte
    intro p inHash
    have inWord : p % 4 < 4 := Nat.mod_lt p (by decide)
    have spelled := toNat_getD_words (chainOf state).words inWord (j := p / 4)
      (show p / 4 < 8 by omega)
    rw [Nat.div_add_mod p 4, words _ (by omega)] at spelled
    apply UInt8.toNat_inj.mp
    rw [byte_putHash state hash inHash, toNat_hashByte state inWord]
    exact spelled.symm
  rw [same]

/-- The message, its end bit and the zeros, up to where they are written. -/
theorem Absorbed.take_padZeros {ctx : Sha256Ctx} {message : List UInt8}
    (absorbed : Absorbed ctx message) {stop : Nat} (room : message.length % 64 < stop)
    (inside : stop ≤ 64) :
    (padZeros (ctx.data.set! ctx.datalen.toNat 0x80)
        (ctx.datalen.toNat + 1) stop).toList.take stop =
      BlockHash.rest 64 message ++
        128 :: List.replicate (stop - (message.length % 64 + 1)) 0 := by
  have written : (ctx.data.set! ctx.datalen.toNat 0x80).toList.take (message.length % 64 + 1) =
      BlockHash.rest 64 message ++ [128] := by
    rw [Vector.toList_set!, absorbed.datalen, take_set_succ (by rw [Vector.length_toList]; omega),
      absorbed.data]
  have front : (BlockHash.rest 64 message ++ [128] ++
      List.replicate (stop - (message.length % 64 + 1)) 0).length = stop := by
    rw [List.length_append, List.length_append, BlockHash.length_rest, List.length_singleton,
      List.length_replicate]
    omega
  rw [absorbed.datalen, toList_padZeros _ (by omega) inside]
  rw [absorbed.datalen] at written
  rw [written, ← List.append_assoc, List.take_left' front, List.append_assoc]
  rfl

/-- The length goes into the last block modulo `2 ^ 64`. -/
theorem Absorbed.bitlen_total {ctx : Sha256Ctx} {message : List UInt8}
    (absorbed : Absorbed ctx message) :
    BigEndian.ofNat 8 (ctx.bitlen + (ctx.datalen * 8).toUInt64).toNat =
      BigEndian.ofNat 8 (8 * message.length) := by
  have below : message.length % 64 < 64 := Nat.mod_lt _ (by decide)
  have bits : (ctx.datalen * 8).toUInt64.toNat = message.length % 64 * 8 := by
    rw [UInt32.toNat_toUInt64, UInt32.toNat_mul, absorbed.datalen]
    show message.length % 64 * 8 % 2 ^ 32 = _
    omega
  apply BigEndian.eq_of_toNat_eq
  · rw [BigEndian.length_ofNat, BigEndian.length_ofNat]
  · rw [BigEndian.toNat_ofNat, BigEndian.toNat_ofNat, UInt64.toNat_add, absorbed.bitlen, bits]
    show (512 * (message.length / 64) % 2 ^ 64 + message.length % 64 * 8) % 2 ^ 64 % 2 ^ 64 =
      8 * message.length % 2 ^ 64
    omega

/-- `sha256_final` ends with the digest of the standard, in one block or in two. -/
theorem Absorbed.sha256Final {ctx : Sha256Ctx} {message : List UInt8}
    (absorbed : Absorbed ctx message) (hash : Uint256) :
    (sha256Final ctx hash).2.bytes = SecureHash.digest message := by
  have below : message.length % 64 < 64 := Nat.mod_lt _ (by decide)
  have partLength := BlockHash.length_rest 64 message
  have blocks := BlockHash.blocks_append_data (by decide : 0 < 64) message
    (SecureHash.padding message.length)
  unfold SecureHash.digest SecureHash.messageBlocks
  rw [blocks, List.foldl_append, ← absorbed.state]
  by_cases oneBlock : ctx.datalen < 56
  · have room : message.length % 64 < 56 := by
      rw [← absorbed.datalen]
      exact UInt32.lt_iff_toNat_lt.mp oneBlock
    have zeros : SecureHash.zeros message.length = 56 - (message.length % 64 + 1) := by
      unfold SecureHash.zeros
      omega
    have block : (BlockHash.rest 64 message ++ SecureHash.padding message.length).length = 64 := by
      rw [List.length_append, partLength, SecureHash.length_padding, zeros]
      omega
    have data : (putBitlen (padZeros (ctx.data.set! ctx.datalen.toNat 0x80)
        (ctx.datalen.toNat + 1) 56) (ctx.bitlen + (ctx.datalen * 8).toUInt64)).toList =
        BlockHash.rest 64 message ++ SecureHash.padding message.length := by
      rw [toList_putBitlen, absorbed.take_padZeros room (by decide), absorbed.bitlen_total,
        SecureHash.padding, zeros, List.append_assoc]
      rfl
    rw [BlockHash.blocks_of_full (by decide) block]
    unfold Solution.sha256Final
    simp only [oneBlock, if_true]
    rw [putHash_bytes, chainOf_sha256Transform _ Vector.length_toList, data]
    rfl
  · have noRoom : 56 ≤ message.length % 64 := by
      rw [← absorbed.datalen]
      exact UInt32.le_iff_toNat_le.mp (UInt32.not_lt.mp oneBlock)
    have zeros : SecureHash.zeros message.length = 64 - (message.length % 64 + 1) + 56 := by
      unfold SecureHash.zeros
      omega
    -- the end bit and some zeros fill this block, the other zeros go before the length
    let first := BlockHash.rest 64 message ++
      128 :: List.replicate (64 - (message.length % 64 + 1)) 0
    let second := List.replicate 56 0 ++ BigEndian.ofNat 8 (8 * message.length)
    have split : BlockHash.rest 64 message ++ SecureHash.padding message.length =
        first ++ second := by
      rw [SecureHash.padding, zeros, List.replicate_add, List.append_assoc, List.append_assoc]
      rfl
    have firstLength : first.length = 64 := by
      rw [List.length_append, partLength, List.length_cons, List.length_replicate]
      omega
    have secondLength : second.length = 64 := by
      rw [List.length_append, List.length_replicate, BigEndian.length_ofNat]
    have firstData : (padZeros (ctx.data.set! ctx.datalen.toNat 0x80)
        (ctx.datalen.toNat + 1) 64).toList = first := by
      have taken := absorbed.take_padZeros below (Nat.le_refl 64)
      rwa [List.take_of_length_le (by rw [Vector.length_toList])] at taken
    have secondData : ∀ data : Vector UInt8 64,
        (putBitlen (padZeros data 0 56) (ctx.bitlen + (ctx.datalen * 8).toUInt64)).toList =
          second := by
      intro data
      rw [toList_putBitlen, toList_padZeros data (by decide) (by decide), absorbed.bitlen_total]
      rw [List.take_zero, List.nil_append, List.take_left' List.length_replicate]
    rw [split, BlockHash.blocks_append (by decide) firstLength,
      BlockHash.blocks_of_full (by decide) secondLength]
    unfold Solution.sha256Final
    simp only [oneBlock, if_false, sha256Transform_data, sha256Transform_datalen,
      sha256Transform_bitlen]
    rw [putHash_bytes, chainOf_sha256Transform _ Vector.length_toList, secondData,
      chainOf_sha256Transform _ Vector.length_toList, firstData]
    rfl

/-! ## A stream of calls -/

/-- One call of `sha256_update` for each chunk, with the chunk's length. -/
def updateAll (ctx : Sha256Ctx) : List (List UInt8) → Option Sha256Ctx
  | [] => some ctx
  | chunk :: chunks =>
      (sha256Update ctx chunk (UInt64.ofNat chunk.length)).bind fun next => updateAll next chunks

theorem Absorbed.updateAll {ctx : Sha256Ctx} {message : List UInt8}
    (absorbed : Absorbed ctx message) {chunks : List (List UInt8)}
    (small : ∀ chunk ∈ chunks, chunk.length < 2 ^ 32) :
    ∃ last, updateAll ctx chunks = some last ∧ Absorbed last (message ++ chunks.flatten) := by
  induction chunks generalizing ctx message with
  | nil =>
      refine ⟨ctx, rfl, ?_⟩
      rw [List.flatten_nil, List.append_nil]
      exact absorbed
  | cons chunk chunks inductionHypothesis =>
      obtain ⟨next, updated, nextAbsorbed⟩ :=
        absorbed.sha256Update (small chunk List.mem_cons_self)
      obtain ⟨last, further, lastAbsorbed⟩ := inductionHypothesis nextAbsorbed
        fun other member => small other (List.mem_cons_of_mem chunk member)
      refine ⟨last, ?_, ?_⟩
      · rw [Solution.updateAll, updated]
        exact further
      · rw [List.append_assoc] at lastAbsorbed
        exact lastAbsorbed

/-- However a message is cut into calls, and whatever the context and the destination held
before, the calls return and leave the digest of the whole message. -/
theorem digest_of_chunks (ctx : Sha256Ctx) (hash : Uint256) {chunks : List (List UInt8)}
    (small : ∀ chunk ∈ chunks, chunk.length < 2 ^ 32) :
    ∃ last, updateAll (sha256Init ctx) chunks = some last ∧
      (sha256Final last hash).2.bytes = SecureHash.digest chunks.flatten := by
  obtain ⟨last, updated, absorbed⟩ := (absorbed_sha256Init ctx).updateAll small
  exact ⟨last, updated, absorbed.sha256Final hash⟩

/-- A context as memory may hold it. -/
def staleCtx : Sha256Ctx :=
  { data := Vector.replicate 64 0xee, datalen := 17, bitlen := 99, state := Vector.replicate 8 5 }

/-- `"abc"` in two calls. -/
theorem digest_of_chunks_abc :
    SecureHash.digest [97, 98, 99] =
      [0xba, 0x78, 0x16, 0xbf, 0x8f, 0x01, 0xcf, 0xea, 0x41, 0x41, 0x40, 0xde, 0x5d, 0xae, 0x22,
        0x23, 0xb0, 0x03, 0x61, 0xa3, 0x96, 0x17, 0x7a, 0x9c, 0xb4, 0x10, 0xff, 0x61, 0xf2, 0x00,
        0x15, 0xad] := by
  have small : ∀ chunk ∈ [[97, 98], [(99 : UInt8)]], chunk.length < 2 ^ 32 := by simp
  obtain ⟨last, updated, digest⟩ := digest_of_chunks staleCtx uint256Init small
  have computed : (updateAll (sha256Init staleCtx) [[97, 98], [99]]).map
      (fun last => (sha256Final last uint256Init).2.bytes) =
      some [0xba, 0x78, 0x16, 0xbf, 0x8f, 0x01, 0xcf, 0xea, 0x41, 0x41, 0x40, 0xde, 0x5d, 0xae,
        0x22, 0x23, 0xb0, 0x03, 0x61, 0xa3, 0x96, 0x17, 0x7a, 0x9c, 0xb4, 0x10, 0xff, 0x61, 0xf2,
        0x00, 0x15, 0xad] := by decide +kernel
  rw [updated, Option.map_some, digest] at computed
  exact Option.some.inj computed

/-- `sha256_update` returns exactly for lengths below `2 ^ 32`, and then it has taken all of the
bytes. -/
theorem sha256Update_returns_iff {data : List UInt8} {len : UInt64}
    (inside : len.toNat ≤ data.length) (ctx : Sha256Ctx) :
    ((∃ fuel next, updateLoop data len fuel 0 ctx = some next) ↔ len.toNat < 2 ^ 32) ∧
    ∀ fuel next, updateLoop data len fuel 0 ctx = some next →
      next = (data.take len.toNat).foldl updateByte ctx := by
  have returns : ∀ fuel next, updateLoop data len fuel 0 ctx = some next → len.toNat < 2 ^ 32 := by
    intro fuel next returned
    by_contra large
    rw [updateLoop_none (Nat.not_lt.mp large)] at returned
    exact absurd returned.symm (Option.some_ne_none next)
  refine ⟨⟨fun ⟨fuel, next, returned⟩ => returns fuel next returned, ?_⟩, ?_⟩
  · intro small
    exact ⟨_, _, sha256Update_eq small inside ctx⟩
  · intro fuel next returned
    have small := returns fuel next returned
    -- more fuel does not change what is returned
    have more := updateLoop_mono returned (len.toNat + 1)
    have ended := updateLoop_some small (i := 0) (Nat.zero_add _) inside fuel ctx
    rw [Nat.add_comm, more] at ended
    exact Option.some.inj ended

theorem sha256Update_returns_iff_abc :
    (∃ fuel next, updateLoop [97, 98, 99] 3 fuel 0 staleCtx = some next) ↔ 3 < 2 ^ 32 :=
  (sha256Update_returns_iff (by decide) staleCtx).1

/-! ## Collisions -/

/-- The state that `sha256_transform` leaves. -/
def transformState (state : Vector UInt32 8) (block : List UInt8) : Vector UInt32 8 :=
  (sha256Transform { data := Vector.replicate 64 0, datalen := 0, bitlen := 0, state } block).state

theorem chainOf_transformState (state : Vector UInt32 8) {block : List UInt8}
    (full : block.length = 64) :
    chainOf (transformState state block) = SecureHash.compress (chainOf state) block :=
  chainOf_sha256Transform _ full

theorem chainOf_foldl {blocks : List (List UInt8)} (full : ∀ block ∈ blocks, block.length = 64)
    (state : Vector UInt32 8) :
    chainOf (blocks.foldl transformState state) =
      blocks.foldl SecureHash.compress (chainOf state) := by
  induction blocks generalizing state with
  | nil => rfl
  | cons block blocks inductionHypothesis =>
      rw [List.foldl_cons, List.foldl_cons,
        inductionHypothesis fun other member => full other (List.mem_cons_of_mem block member),
        chainOf_transformState state (full block List.mem_cons_self)]

theorem length_of_mem_messageBlocks {message block : List UInt8}
    (member : block ∈ SecureHash.messageBlocks message) : block.length = 64 :=
  BlockHash.length_of_mem_blocks member

/-- Different messages get different hashes, or the calls of `sha256_transform` for the two of
them contain two different ones with one result. -/
theorem hash_collision (ctx ctx' : Sha256Ctx) (hash hash' : Uint256)
    {chunks others : List (List UInt8)}
    (small : ∀ chunk ∈ chunks, chunk.length < 2 ^ 32)
    (small' : ∀ chunk ∈ others, chunk.length < 2 ^ 32)
    (bound : chunks.flatten.length < 2 ^ 61) (bound' : others.flatten.length < 2 ^ 61)
    (different : chunks.flatten ≠ others.flatten) :
    (updateAll (sha256Init ctx) chunks).map (fun last => (sha256Final last hash).2) ≠
        (updateAll (sha256Init ctx') others).map (fun last => (sha256Final last hash').2) ∨
      BlockHash.CollidesIn transformState initialState initialState
        (SecureHash.messageBlocks chunks.flatten) (SecureHash.messageBlocks others.flatten) := by
  obtain ⟨last, updated, absorbed⟩ := (absorbed_sha256Init ctx).updateAll small
  obtain ⟨last', updated', absorbed'⟩ := (absorbed_sha256Init ctx').updateAll small'
  have digest := absorbed.sha256Final hash
  have digest' := absorbed'.sha256Final hash'
  rw [updated, updated', Option.map_some, Option.map_some]
  by_cases same : SecureHash.digest chunks.flatten = SecureHash.digest others.flatten
  · right
    apply BlockHash.collidesIn_of_foldl_eq
      (SecureHash.not_messageBlocks_suffix bound bound' different)
      (SecureHash.not_messageBlocks_suffix bound' bound (Ne.symm different))
    apply chainOf_bijective.injective
    rw [chainOf_foldl fun _ member => length_of_mem_messageBlocks member,
      chainOf_foldl fun _ member => length_of_mem_messageBlocks member, chainOf_initialState]
    exact Chain.bytes_injective same
  · left
    intro equal
    apply same
    rw [List.nil_append] at digest digest'
    rw [← digest, ← digest', Option.some.inj equal]

theorem hash_collision_abc :
    (updateAll (sha256Init staleCtx) [[97], [98]]).map
        (fun last => (sha256Final last uint256Init).2) ≠
        (updateAll (sha256Init staleCtx) [[97, 99]]).map
          (fun last => (sha256Final last uint256Init).2) ∨
      BlockHash.CollidesIn transformState initialState initialState
        (SecureHash.messageBlocks [97, 98]) (SecureHash.messageBlocks [97, 99]) :=
  hash_collision staleCtx staleCtx uint256Init uint256Init (by simp) (by simp) (by simp) (by simp)
    (by decide)

/-! ## A solution -/

/-- The digest of the standard as 32 bytes. -/
noncomputable def standardSha (message : List UInt8) : Uint256 :=
  ⟨SecureHash.digest message, Chain.length_bytes _⟩

/-- `is_valid_soln`, from the first context to the comparison: `ctx` and `buf` are not initialised,
and both are used for the second hash as the first one leaves them. -/
def isValidSolnInPlace (ctx : Sha256Ctx) (buf : Uint256) (host : Host) (target seed : Uint256)
    (solution : UInt64) : Option Int :=
  (sha256Update (sha256Init ctx) (getX host seed solution) 40).bind fun ctx =>
    let first := sha256Final ctx buf
    (sha256Update (sha256Init first.1) first.2.bytes 32).bind fun ctx =>
      some (sha256Compare (sha256Final ctx first.2).2 target)

theorem length_getX (host : Host) (seed : Uint256) (solution : UInt64) :
    (getX host seed solution).length = 40 := by
  have memory : (host.memory 8 solution.toNat).length = 8 := by
    match host with
    | .bigEndian => rw [memory_bigEndian, BigEndian.length_ofNat]
    | .littleEndian => rw [memory_littleEndian, List.length_reverse, BigEndian.length_ofNat]
  unfold getX
  rw [shifted_bytes, List.length_append, seed.length_eq, apply_ite List.length, memory,
    BigEndian.length_ofNat, ite_self]

/-- One of the two hashes of `is_valid_soln`. -/
theorem sha256_once (ctx : Sha256Ctx) (buf : Uint256) {message : List UInt8}
    (small : message.length < 2 ^ 32) :
    ∃ last, sha256Update (sha256Init ctx) message (UInt64.ofNat message.length) = some last ∧
      (sha256Final last buf).2 = standardSha message := by
  obtain ⟨last, updated, absorbed⟩ := (absorbed_sha256Init ctx).sha256Update small
  exact ⟨last, updated, Uint256.ext (absorbed.sha256Final buf)⟩

/-- The verdict of `is_valid_soln` does not depend on what its variables held, and compares the
standard's hash of the standard's hash with the target. -/
theorem isValidSoln_standard (ctx : Sha256Ctx) (buf : Uint256) (host : Host)
    (target seed : Uint256) (solution : UInt64) :
    isValidSolnInPlace ctx buf host target seed solution =
        some (isValidSoln standardSha host target seed solution) ∧
      (isValidSolnInPlace ctx buf host target seed solution = some (-1) ↔
        BigEndian.toNat (SecureHash.digest (SecureHash.digest (getX host seed solution))) <
          target.toNat) := by
  have inPlace : isValidSolnInPlace ctx buf host target seed solution =
      some (isValidSoln standardSha host target seed solution) := by
    have firstSmall : (getX host seed solution).length < 2 ^ 32 := by
      rw [length_getX]
      decide
    obtain ⟨first, firstUpdated, firstHash⟩ := sha256_once ctx buf firstSmall
    rw [length_getX] at firstUpdated
    have secondSmall : (sha256Final first buf).2.bytes.length < 2 ^ 32 := by
      rw [(sha256Final first buf).2.length_eq]
      decide
    obtain ⟨second, secondUpdated, secondHash⟩ :=
      sha256_once (sha256Final first buf).1 (sha256Final first buf).2 secondSmall
    rw [(sha256Final first buf).2.length_eq] at secondUpdated
    show (sha256Update (sha256Init ctx) (getX host seed solution) (UInt64.ofNat 40)).bind _ = _
    rw [firstUpdated, Option.bind_some]
    show (sha256Update (sha256Init (sha256Final first buf).1) (sha256Final first buf).2.bytes
      (UInt64.ofNat 32)).bind _ = _
    rw [secondUpdated, Option.bind_some, secondHash, firstHash]
    rfl
  refine ⟨inPlace, ?_⟩
  rw [inPlace, Option.some_inj]
  exact sha256Compare_eq_neg_one_iff _ _

end BitcoinServer.Solution
