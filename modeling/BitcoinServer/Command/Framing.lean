import BitcoinServer.Library.CText
import BitcoinServer.Library.LineSplit
import Mathlib.Algebra.Order.Ring.Int
import Mathlib.Data.List.Find
import Mathlib.Data.List.TakeWhile

/-!
Contract: how the loop of `client_handler` cuts what it reads into commands.

A buffer is a list of bytes of which some have never been written. An operation on
memory gives `none` where it would touch a byte outside its buffer or read one that
was never written, and the doubling loop where it never ends. An `int` wraps around
as in 32-bit two's complement. `malloc` and `realloc` always find memory.

Owns the framing law: the commands are the pieces of the input between CR LF, however
the input is cut into reads.
-/

namespace BitcoinServer.Command

open CText

/-! ## Memory -/

/-- The bytes of an allocation; `none` is one that was never written. -/
abbrev Cells := List (Option UInt8)

/-- `int` arithmetic. -/
def wrap (value : Int) : Int := value.bmod (2 ^ 32)

def malloc (size : Int) : Cells := List.replicate size.toNat none

def realloc (cells : Cells) (size : Int) : Cells :=
  (cells ++ List.replicate (size.toNat - cells.length) none).take size.toNat

/-- `memcpy(dst + at_, src + from_, n)`. -/
def memcpy (dst : Cells) (at_ : Int) (src : Cells) (from_ n : Int) : Option Cells :=
  if 0 ≤ at_ ∧ 0 ≤ from_ ∧ 0 ≤ n ∧ at_ + n ≤ dst.length ∧ from_ + n ≤ src.length then
    some (dst.take at_.toNat ++ (src.drop from_.toNat).take n.toNat ++ dst.drop (at_ + n).toNat)
  else none

/-- The characters of a string. -/
def readString : Cells → Option (List UInt8)
  | some byte :: rest => if byte = 0 then some [] else (readString rest).map (byte :: ·)
  | _ => none

/-! ## The source's functions -/

/-- `recieved_string`, `recv_str_len` and `recv_used_len`. -/
structure RecvBuffer where
  cells : Cells
  strLen : Int
  usedLen : Int

/-- `INIT_CMD_STR_SIZE`. -/
def initCmdStrSize : Int := 128

/-- `BUFFER_LEN`. -/
def bufferLen : Nat := 256

def RecvBuffer.initial : RecvBuffer := ⟨malloc initCmdStrSize, initCmdStrSize, 0⟩

/-- The loop of `has_command` and of `get_command`: the position of the first CR that
an LF follows. -/
def findCommand (recv : RecvBuffer) : Option Nat :=
  (List.range (recv.usedLen - 1).toNat).find? fun i =>
    decide (recv.cells[i]? = some (some 13) ∧ recv.cells[i + 1]? = some (some 10))

/-- `has_command`. -/
def hasCommand (recv : RecvBuffer) : Bool := (findCommand recv).isSome

/-- `get_command`: `cmd`, unless it returns `NULL`, and the buffer afterwards. -/
def getCommand (recv : RecvBuffer) : Option (Option (Cells × RecvBuffer)) :=
  match findCommand recv with
  | none => some none
  | some i => do
      let cmd ← memcpy (malloc (i + 1)) 0 recv.cells 0 i
      let rest ← memcpy (malloc recv.strLen) 0 recv.cells (i + 2) (recv.strLen - i - 2)
      some (some (cmd.set i (some 0), ⟨rest, recv.strLen, recv.usedLen - (i + 2)⟩))

/-- The loop that doubles `str_len` until it reaches `needed`. After 32 doublings
`str_len` is 0, so a loop that has not ended then never ends. -/
def growLoop (recv : RecvBuffer) (needed : Int) : Nat → Option RecvBuffer
  | 0 => if recv.strLen < needed then none else some recv
  | rounds + 1 =>
      if recv.strLen < needed then
        let strLen := wrap (recv.strLen * 2)
        growLoop ⟨realloc recv.cells strLen, strLen, recv.usedLen⟩ needed rounds
      else some recv

/-- `join_client_command`. -/
def joinClientCommand (recv : RecvBuffer) (commandStr : Cells) : Option RecvBuffer := do
  let cmdLen : Int := (← readString commandStr).length
  let grown ← growLoop recv (wrap (wrap (recv.usedLen + cmdLen) + 1)) 32
  let cells ← memcpy grown.cells grown.usedLen commandStr 0 cmdLen
  some ⟨cells, grown.strLen, wrap (grown.usedLen + cmdLen)⟩

/-! ## The loop of `client_handler` -/

/-- The bytes of one successful `read`. -/
structure Chunk where
  bytes : List UInt8
  nonempty : bytes ≠ []
  fits : bytes.length ≤ bufferLen - 1

/-- `buffer` after `bzero` and `read`. -/
def Chunk.buffer (chunk : Chunk) : Cells :=
  (chunk.bytes ++ List.replicate (bufferLen - chunk.bytes.length) 0).map some

theorem usedLen_of_getCommand {recv rest : RecvBuffer} {cmd : Cells}
    (found : getCommand recv = some (some (cmd, rest))) :
    rest.usedLen.toNat < recv.usedLen.toNat := by
  unfold getCommand at found
  split at found
  next => exact nomatch Option.some.inj found
  next i terminator =>
    have inside : i < (recv.usedLen - 1).toNat :=
      List.mem_range.mp (List.mem_of_find?_eq_some terminator)
    obtain ⟨_, _, found⟩ := Option.bind_eq_some_iff.mp found
    obtain ⟨_, _, found⟩ := Option.bind_eq_some_iff.mp found
    obtain ⟨-, rfl⟩ := Prod.mk.inj (Option.some.inj (Option.some.inj found))
    show (recv.usedLen - (i + 2)).toNat < _
    omega

/-- `while((cmd = get_command(..)) != NULL)`: the command strings that are dispatched. -/
def drain (recv : RecvBuffer) : Option (RecvBuffer × List (List UInt8)) :=
  match _found : getCommand recv with
  | none => none
  | some none => some (recv, [])
  | some (some (cmd, rest)) => do
      let command ← readString cmd
      let (last, commands) ← drain rest
      some (last, command :: commands)
termination_by recv.usedLen.toNat
decreasing_by all_goals exact usedLen_of_getCommand _found

/-- The loop's own state, the reads still to come and the commands dispatched. -/
structure Receive where
  recv : RecvBuffer
  input : List Chunk
  dispatched : List (List UInt8)

/-- The read of one round, which is skipped while the buffer still has a command; `none`
where there is nothing more to read. -/
def readChunk (s : Receive) : Option (RecvBuffer × List Chunk) :=
  if hasCommand s.recv then some (s.recv, s.input)
  else
    match s.input with
    | [] => none
    | chunk :: input => (joinClientCommand s.recv chunk.buffer).map fun recv => (recv, input)

/-- One round of `while(1)`. -/
def receiveRound (s : Receive) : Option Receive := do
  let (recv, input) ← readChunk s
  let (last, commands) ← drain recv
  some ⟨last, input, s.dispatched ++ commands⟩

/-- The loop head after some rounds. -/
def receiveRounds (s : Receive) : Nat → Option Receive
  | 0 => some s
  | rounds + 1 => (receiveRounds s rounds).bind receiveRound

/-! ## What a buffer holds -/

/-- The bytes that one read adds: those before its first NUL. -/
def Chunk.eff (chunk : Chunk) : List UInt8 := cString chunk.bytes

/-- The buffer holds `bytes` in its first `used_len` places and knows its own size,
which is a power of two. -/
structure Holds (recv : RecvBuffer) (bytes : List UInt8) : Prop where
  usedLen : recv.usedLen = bytes.length
  written : ∃ rest, recv.cells = bytes.map some ++ rest
  strLen : recv.strLen = recv.cells.length
  power : ∃ k ≤ 30, recv.strLen = 2 ^ k
  noNul : ∀ byte ∈ bytes, byte ≠ 0

section Buffer

variable {recv : RecvBuffer} {bytes front back : List UInt8}

theorem holds_initial : Holds .initial [] where
  usedLen := rfl
  written := ⟨_, rfl⟩
  strLen := rfl
  power := ⟨7, by decide, rfl⟩
  noNul := nofun

theorem memcpy_some (dst src : Cells) (at_ from_ n : Nat) (room : at_ + n ≤ dst.length)
    (stays : from_ + n ≤ src.length) :
    memcpy dst at_ src from_ n =
      some (dst.take at_ ++ (src.drop from_).take n ++ dst.drop (at_ + n)) := by
  unfold memcpy
  rw [if_pos (by omega)]
  rfl

/-- A copy to the start of a new allocation. -/
theorem memcpy_malloc (src : Cells) (from_ n size : Nat) (room : n ≤ size)
    (stays : from_ + n ≤ src.length) :
    memcpy (malloc size) 0 src from_ n =
      some ((src.drop from_).take n ++ List.replicate (size - n) none) := by
  have length : (malloc size).length = size := List.length_replicate
  have copied := memcpy_some (malloc size) src 0 from_ n (by rw [length]; omega) stays
  rw [show (0 : Int) = ((0 : Nat) : Int) from rfl, copied]
  show some ([] ++ _ ++ (List.replicate size none).drop (0 + n)) = _
  rw [List.drop_replicate, Nat.zero_add, List.nil_append]

theorem readString_some (noNul : ∀ byte ∈ bytes, byte ≠ 0) (rest : Cells) :
    readString (bytes.map some ++ some 0 :: rest) = some bytes := by
  induction bytes with
  | nil => rfl
  | cons byte bytes inductionHypothesis =>
      have tail := inductionHypothesis fun other member =>
        noNul other (List.mem_cons_of_mem _ member)
      rw [List.map_cons, List.cons_append, readString, if_neg (noNul byte List.mem_cons_self), tail]
      rfl

theorem findCommand_holds (holds : Holds recv bytes) :
    findCommand recv = (LineSplit.cut 13 10 bytes).map fun parts => parts.1.length := by
  obtain ⟨rest, cells⟩ := holds.written
  rw [← LineSplit.find_terminator]
  unfold findCommand
  rw [show (recv.usedLen - 1).toNat = bytes.length - 1 by rw [holds.usedLen]; omega]
  apply List.find?_congr
  intro i member
  have inside : i + 1 < bytes.length := by
    have := List.mem_range.mp member
    omega
  rw [cells, List.getElem?_append_left (by simp; omega), List.getElem?_append_left (by simpa),
    List.getElem?_map, List.getElem?_map]
  simp [inside, Nat.lt_of_succ_lt inside]

theorem getCommand_of_none (holds : Holds recv bytes)
    (none : LineSplit.cut 13 10 bytes = none) : getCommand recv = some .none := by
  have nothing := findCommand_holds holds
  rw [none] at nothing
  unfold getCommand
  rw [nothing]
  rfl

/-- The cells before the first terminator and those behind it. -/
theorem cells_of_cut (holds : Holds recv bytes)
    (found : LineSplit.cut 13 10 bytes = some (front, back)) :
    ∃ junk : Cells, recv.cells.take front.length = front.map some ∧
      recv.cells.drop (front.length + 2) = back.map some ++ junk ∧
      recv.cells.length = front.length + 2 + back.length + junk.length := by
  have length := LineSplit.length_of_cut found
  have spelled := LineSplit.eq_of_cut found
  obtain ⟨junk, cells⟩ := holds.written
  refine ⟨junk, ?_, ?_, ?_⟩
  · rw [cells, spelled, List.map_append, List.append_assoc, List.take_left' (by simp)]
  · rw [cells, spelled, List.map_append, List.append_assoc, ← List.drop_drop,
      List.drop_left' (by simp)]
    rfl
  · rw [cells, List.length_append, List.length_map]
    omega

/-- `get_command` takes the bytes before the first terminator out of the buffer and
leaves those behind it. -/
theorem getCommand_of_cut (holds : Holds recv bytes)
    (found : LineSplit.cut 13 10 bytes = some (front, back)) :
    ∃ cmd rest, getCommand recv = some (some (cmd, rest)) ∧ readString cmd = some front ∧
      Holds rest back := by
  have terminator := findCommand_holds holds
  rw [found] at terminator
  have length := LineSplit.length_of_cut found
  obtain ⟨junk, front_cells, back_cells, size⟩ := cells_of_cut holds found
  have strLen := holds.strLen
  have moved : recv.strLen - front.length - 2 =
      ((recv.cells.length - (front.length + 2) : Nat) : Int) := by
    omega
  have cmd : memcpy (malloc (front.length + 1)) 0 recv.cells 0 front.length =
      some (front.map some ++ [none]) := by
    have copied := memcpy_malloc recv.cells 0 front.length (front.length + 1)
      (Nat.le_add_right _ 1) (by omega)
    rw [List.drop_zero, front_cells, Nat.add_sub_cancel_left] at copied
    exact copied
  have rest : memcpy (malloc recv.strLen) 0 recv.cells (front.length + 2)
      (recv.strLen - front.length - 2) =
      some (back.map some ++ (junk ++ List.replicate (front.length + 2) none)) := by
    have copied := memcpy_malloc recv.cells (front.length + 2)
      (recv.cells.length - (front.length + 2)) recv.cells.length (Nat.sub_le _ _) (by omega)
    rw [back_cells, List.take_of_length_le (by rw [List.length_append, List.length_map]; omega),
      Nat.sub_sub_self (by omega), ← strLen, List.append_assoc] at copied
    rw [moved]
    exact copied
  have noNul := holds.noNul
  rw [LineSplit.eq_of_cut found] at noNul
  refine ⟨front.map some ++ [some 0],
    ⟨back.map some ++ (junk ++ List.replicate (front.length + 2) none), recv.strLen,
      recv.usedLen - (front.length + 2)⟩, ?_,
    readString_some (fun byte member => noNul byte (List.mem_append_left _ member)) [], ?_⟩
  · unfold getCommand
    rw [terminator]
    show (memcpy (malloc (front.length + 1)) 0 recv.cells 0 front.length).bind _ = _
    rw [cmd]
    show (memcpy (malloc recv.strLen) 0 recv.cells (front.length + 2)
      (recv.strLen - front.length - 2)).bind _ = _
    rw [rest]
    simp
  · have usedLen := holds.usedLen
    exact {
      usedLen := by
        show recv.usedLen - (front.length + 2) = _
        omega
      written := ⟨_, rfl⟩
      strLen := by
        show recv.strLen = _
        simp only [List.length_append, List.length_map, List.length_replicate]
        omega
      power := holds.power
      noNul := fun byte member => noNul byte (by simp [member]) }

/-- A line at the start of the buffer comes out without its terminator. -/
theorem getCommand_line {command more : List UInt8}
    (holds : Holds recv (command ++ 13 :: 10 :: more)) (noCr : ∀ byte ∈ command, byte ≠ 13) :
    ∃ cmd rest, getCommand recv = some (some (cmd, rest)) ∧ readString cmd = some command ∧
      Holds rest more :=
  getCommand_of_cut holds (LineSplit.cut_of_free noCr)

theorem drain_of_null (null : getCommand recv = some none) : drain recv = some (recv, []) := by
  rw [drain]
  split <;> simp_all

theorem drain_of_command {rest : RecvBuffer} {cmd : Cells}
    (found : getCommand recv = some (some (cmd, rest))) :
    drain recv = (readString cmd).bind fun command =>
      (drain rest).bind fun last => some (last.1, command :: last.2) := by
  rw [drain]
  split <;> simp_all

/-- Draining the buffer splits the bytes that it holds. -/
theorem drain_holds (holds : Holds recv bytes) :
    ∃ last, drain recv = some (last, (LineSplit.split 13 10 bytes).1) ∧
      Holds last (LineSplit.split 13 10 bytes).2 := by
  fun_induction LineSplit.split 13 10 bytes generalizing recv with
  | case1 bytes none =>
      exact ⟨recv, drain_of_null (getCommand_of_none holds none), holds⟩
  | case2 bytes front back found inductionHypothesis =>
      obtain ⟨cmd, rest, taken, read, restHolds⟩ := getCommand_of_cut holds found
      obtain ⟨last, drained, lastHolds⟩ := inductionHypothesis restHolds
      refine ⟨last, ?_, lastHolds⟩
      rw [drain_of_command taken, read, drained]
      rfl

theorem hasCommand_holds (holds : Holds recv bytes) (none : LineSplit.cut 13 10 bytes = none) :
    hasCommand recv = false := by
  unfold hasCommand
  rw [findCommand_holds holds, none]
  rfl

theorem wrap_of_small {value : Int} (nonneg : 0 ≤ value) (small : value < 2 ^ 31) :
    wrap value = value := by
  unfold wrap Int.bmod
  simp only
  split <;> omega

/-- A power of two below `2 ^ 30` doubles without wrapping around. -/
theorem wrap_two_pow {k : Nat} (small : k < 30) : wrap ((2 : Int) ^ k * 2) = 2 ^ (k + 1) := by
  have upper : (2 : Int) ^ (k + 1) ≤ 2 ^ 30 := pow_le_pow_right₀ (by decide) small
  have positive : (0 : Int) < 2 ^ (k + 1) := Int.pow_pos (by decide)
  rw [← Int.pow_succ]
  exact wrap_of_small (by omega) (by omega)

theorem lt_of_two_pow_lt {k : Nat} {limit : Int} (bounded : limit ≤ 2 ^ 30)
    (short : (2 : Int) ^ k < limit) : k < 30 := by
  by_contra large
  have wide : (2 : Int) ^ 30 ≤ 2 ^ k := pow_le_pow_right₀ (by decide) (Nat.not_lt.mp large)
  omega

/-- One doubling of `str_len` with its `realloc`. -/
theorem holds_doubled {k : Nat} (holds : Holds recv bytes) (size : recv.strLen = 2 ^ k)
    (small : k < 30) :
    Holds ⟨realloc recv.cells (2 ^ (k + 1)), 2 ^ (k + 1), recv.usedLen⟩ bytes := by
  obtain ⟨junk, cells⟩ := holds.written
  have strLen := holds.strLen
  have double : (2 : Int) ^ (k + 1) = ((2 * recv.cells.length : Nat) : Int) := by
    rw [Int.pow_succ, ← size, strLen]
    omega
  have extended : realloc recv.cells (2 ^ (k + 1)) =
      bytes.map some ++ (junk ++ List.replicate recv.cells.length none) := by
    rw [double]
    unfold realloc
    rw [Int.toNat_natCast, Nat.two_mul, Nat.add_sub_cancel,
      List.take_of_length_le (by rw [List.length_append, List.length_replicate]), cells,
      List.append_assoc]
  exact {
    usedLen := holds.usedLen
    written := ⟨_, extended⟩
    strLen := by
      show (2 : Int) ^ (k + 1) = _
      have length := congrArg List.length cells
      rw [List.length_append] at length
      rw [extended, double, List.length_append, List.length_append, List.length_replicate]
      omega
    power := ⟨k + 1, small, rfl⟩
    noNul := holds.noNul }

/-- The doubling loop ends with enough room and keeps what the buffer holds. -/
theorem growLoop_holds (holds : Holds recv bytes) (needed : Int) (bounded : needed ≤ 2 ^ 30)
    (rounds k : Nat) (size : recv.strLen = 2 ^ k) (enough : 30 ≤ k + rounds) :
    ∃ grown, growLoop recv needed rounds = some grown ∧ Holds grown bytes ∧
      needed ≤ grown.strLen := by
  have wide : 30 ≤ k → (2 : Int) ^ 30 ≤ 2 ^ k := fun large =>
    pow_le_pow_right₀ (by decide) large
  induction rounds generalizing recv k with
  | zero =>
      have large := wide enough
      refine ⟨recv, ?_, holds, by omega⟩
      rw [growLoop, if_neg (by omega)]
  | succ rounds inductionHypothesis =>
      by_cases short : recv.strLen < needed
      · have small : k < 30 := lt_of_two_pow_lt bounded (size ▸ short)
        have doubled : wrap (recv.strLen * 2) = 2 ^ (k + 1) := by rw [size, wrap_two_pow small]
        rw [growLoop, if_pos short]
        simp only [doubled]
        exact inductionHypothesis (holds_doubled holds size small) (k + 1) rfl (by omega)
          fun large => pow_le_pow_right₀ (by decide) large
      · refine ⟨recv, ?_, holds, Int.not_lt.mp short⟩
        rw [growLoop, if_neg short]

/-- `strlen` of the read buffer stops at the first NUL that was read or behind it. -/
theorem readString_buffer (chunk : Chunk) : readString chunk.buffer = some chunk.eff := by
  have general : ∀ (bytes rest : List UInt8),
      readString ((bytes ++ 0 :: rest).map some) = some (cString bytes) := by
    intro bytes rest
    induction bytes with
    | nil => rfl
    | cons byte bytes inductionHypothesis =>
        rw [List.cons_append, List.map_cons, readString]
        by_cases nul : byte = 0
        · simp [cString, nul]
        · rw [if_neg nul, inductionHypothesis]
          simp [cString, nul]
  have room : bufferLen - chunk.bytes.length = bufferLen - chunk.bytes.length - 1 + 1 := by
    have := chunk.fits
    have : bufferLen = 256 := rfl
    omega
  unfold Chunk.buffer
  rw [room, List.replicate_succ]
  exact general _ _

theorem take_buffer (chunk : Chunk) :
    chunk.buffer.take chunk.eff.length = chunk.eff.map some ∧
      chunk.eff.length ≤ chunk.buffer.length := by
  have isPrefix : chunk.eff <+: chunk.bytes := List.takeWhile_prefix _
  obtain ⟨rest, bytes⟩ := isPrefix
  unfold Chunk.buffer
  rw [← bytes]
  constructor
  · rw [List.append_assoc, List.map_append, List.take_left' (List.length_map _)]
  · simp only [List.length_map, List.length_append]
    omega

/-- What a join needs is computed without wrapping around. -/
theorem wrap_needed (holds : Holds recv bytes) (chunk : Chunk)
    (inInt : bytes.length + chunk.eff.length + 1 < 2 ^ 31) :
    wrap (wrap (recv.usedLen + chunk.eff.length) + 1) =
      recv.usedLen + chunk.eff.length + 1 := by
  have usedLen := holds.usedLen
  have sum : wrap (recv.usedLen + chunk.eff.length) = recv.usedLen + chunk.eff.length :=
    wrap_of_small (by omega) (by omega)
  rw [sum]
  exact wrap_of_small (by omega) (by omega)

/-- `join_client_command` appends what the read buffer holds before its first NUL. -/
theorem joinClientCommand_holds (holds : Holds recv bytes) (chunk : Chunk)
    (bounded : bytes.length + chunk.eff.length < 2 ^ 30) :
    ∃ joined, joinClientCommand recv chunk.buffer = some joined ∧
      Holds joined (bytes ++ chunk.eff) := by
  obtain ⟨k, _, size⟩ := holds.power
  have usedLen := holds.usedLen
  have needed := wrap_needed holds chunk (by omega)
  obtain ⟨grown, grew, grownHolds, room⟩ :=
    growLoop_holds holds (recv.usedLen + chunk.eff.length + 1) (by omega) 32 k size
      (by omega)
  obtain ⟨junk, cells⟩ := grownHolds.written
  have grownUsed := grownHolds.usedLen
  have strLen := grownHolds.strLen
  have copied := memcpy_some grown.cells chunk.buffer bytes.length 0 chunk.eff.length (by omega)
    (by have := (take_buffer chunk).2; omega)
  rw [List.drop_zero, (take_buffer chunk).1] at copied
  have front : grown.cells.take bytes.length = bytes.map some := by
    rw [cells, List.take_left' (List.length_map _)]
  rw [front] at copied
  refine ⟨⟨bytes.map some ++ chunk.eff.map some ++
    grown.cells.drop (bytes.length + chunk.eff.length), grown.strLen,
    wrap (grown.usedLen + chunk.eff.length)⟩, ?_, ?_⟩
  · unfold joinClientCommand
    rw [readString_buffer]
    show (growLoop recv (wrap (wrap (recv.usedLen + chunk.eff.length) + 1)) 32).bind _ = _
    rw [needed, grew]
    show (memcpy grown.cells grown.usedLen chunk.buffer 0 chunk.eff.length).bind _ = _
    rw [grownUsed]
    exact congrArg (Option.bind · _) copied
  · exact {
      usedLen := by
        show wrap (grown.usedLen + chunk.eff.length) = _
        rw [wrap_of_small (by omega) (by omega), List.length_append]
        omega
      written := ⟨grown.cells.drop (bytes.length + chunk.eff.length), by rw [List.map_append]⟩
      strLen := by
        show grown.strLen = _
        simp only [List.length_append, List.length_map, List.length_drop]
        omega
      power := grownHolds.power
      noNul := by
        intro byte member
        rcases List.mem_append.mp member with old | added
        · exact holds.noNul byte old
        · simpa using List.mem_takeWhile_imp added }

end Buffer

/-! ## The framing law -/

def Receive.initial (chunks : List Chunk) : Receive := ⟨.initial, chunks, []⟩

/-- The bytes that reach the buffer, in order. -/
def received (chunks : List Chunk) : List UInt8 := chunks.flatMap Chunk.eff

/-- The pieces of a stream between CR LF, and what stands behind the last one. -/
def commands (stream : List UInt8) : List (List UInt8) × List UInt8 :=
  LineSplit.split 13 10 stream

/-- What is left over of the earlier reads never grows to `2 ^ 30` bytes with the next. -/
def StaysSmall (chunks : List Chunk) : Prop :=
  ∀ k chunk, chunks[k]? = some chunk →
    (commands (received (chunks.take k))).2.length + chunk.eff.length < 2 ^ 30

theorem received_split {chunks : List Chunk} {k : Nat} {chunk : Chunk}
    (present : chunks[k]? = some chunk) : received chunks =
      received (chunks.take k) ++ (chunk.eff ++ received (chunks.drop (k + 1))) := by
  obtain ⟨inSequence, at_k⟩ := List.getElem?_eq_some_iff.mp present
  have parts : chunks = chunks.take k ++ chunk :: chunks.drop (k + 1) := by
    rw [← at_k, List.getElem_cons_drop, List.take_append_drop]
  conv => lhs; rw [parts]
  unfold received
  rw [List.flatMap_append, List.flatMap_cons]

/-- So it is for every input that is short as a whole. -/
theorem staysSmall_of_length {chunks : List Chunk} (short : (received chunks).length < 2 ^ 30) :
    StaysSmall chunks := by
  intro k chunk present
  have whole := received_split present
  have length := congrArg List.length whole
  have remainder := LineSplit.length_remainder 13 10 (received (chunks.take k))
  simp only [List.length_append] at length
  show (LineSplit.split 13 10 (received (chunks.take k))).2.length + _ < _
  omega

/-- The loop head after the reads `seen`, with `input` still to come. -/
structure AtHead (s : Receive) (seen input : List Chunk) : Prop where
  input_eq : s.input = input
  dispatched : s.dispatched = (commands (received seen)).1
  retained : Holds s.recv (commands (received seen)).2

/-- One round takes one read and dispatches the commands that it completes. -/
theorem receiveRound_atHead {s : Receive} {seen input : List Chunk} {chunk : Chunk}
    (atHead : AtHead s seen (chunk :: input))
    (bounded : (commands (received seen)).2.length + chunk.eff.length < 2 ^ 30) :
    ∃ next, receiveRound s = some next ∧ AtHead next (seen ++ [chunk]) input := by
  have nothing := hasCommand_holds atHead.retained (LineSplit.cut_remainder _ _ _)
  obtain ⟨joined, join, joinedHolds⟩ := joinClientCommand_holds atHead.retained chunk bounded
  obtain ⟨last, drained, lastHolds⟩ := drain_holds joinedHolds
  have stream : received (seen ++ [chunk]) = received seen ++ chunk.eff := by
    unfold received
    rw [List.flatMap_append, List.flatMap_singleton]
  have split := LineSplit.split_append 13 10 (received seen) chunk.eff
  refine ⟨⟨last, input, s.dispatched ++
    (commands ((commands (received seen)).2 ++ chunk.eff)).1⟩, ?_, ?_⟩
  · have read : readChunk s = some (joined, input) := by
      unfold readChunk
      rw [nothing, atHead.input_eq, if_neg (by decide)]
      simp only [join, Option.map_some]
    unfold receiveRound
    rw [read]
    show (drain joined).bind _ = _
    rw [drained]
    rfl
  · refine ⟨rfl, ?_, ?_⟩
    · rw [stream]
      show s.dispatched ++ _ = (LineSplit.split 13 10 _).1
      rw [split, atHead.dispatched]
      rfl
    · rw [stream]
      show Holds last (LineSplit.split 13 10 _).2
      rw [split]
      exact lastHolds

/-- Every loop head is reached, with the commands of the reads so far dispatched. -/
theorem receiveRounds_atHead {chunks : List Chunk} (small : StaysSmall chunks) (k : Nat)
    (inSequence : k ≤ chunks.length) :
    ∃ s, receiveRounds (.initial chunks) k = some s ∧
      AtHead s (chunks.take k) (chunks.drop k) := by
  induction k with
  | zero =>
      have nothing : commands [] = ([], []) := LineSplit.split_of_cut_none rfl
      refine ⟨_, rfl, rfl, ?_, ?_⟩
      · show [] = (commands []).1
        rw [nothing]
      · show Holds .initial (commands []).2
        rw [nothing]
        exact holds_initial
  | succ k inductionHypothesis =>
      obtain ⟨s, reached, atHead⟩ := inductionHypothesis (by omega)
      have present : chunks[k]? = some chunks[k] := List.getElem?_eq_getElem inSequence
      rw [List.drop_eq_getElem_cons inSequence] at atHead
      obtain ⟨next, round, nextAtHead⟩ := receiveRound_atHead atHead (small k _ present)
      refine ⟨next, ?_, ?_⟩
      · rw [receiveRounds, reached]
        exact round
      · rw [List.take_succ_eq_append_getElem inSequence]
        exact nextAtHead

/-- The commands dispatched and the bytes retained after any number of reads. -/
theorem framing (chunks : List Chunk) (small : StaysSmall chunks) (k : Nat)
    (inSequence : k ≤ chunks.length) :
    ∃ s, receiveRounds (.initial chunks) k = some s ∧ s.input = chunks.drop k ∧
      hasCommand s.recv = false ∧
      let stream := received (chunks.take k)
      let retained := s.recv.cells.take s.recv.usedLen.toNat
      s.dispatched = (commands stream).1 ∧ retained = (commands stream).2.map some ∧
        (∀ command ∈ s.dispatched, ¬ [13, 10] <:+: command ++ [13]) ∧
        ¬ [13, 10] <:+: (commands stream).2 ∧
        s.dispatched.flatMap (fun command => command ++ [13, 10]) ++ (commands stream).2 =
          stream := by
  obtain ⟨s, reached, atHead⟩ := receiveRounds_atHead small k inSequence
  have dispatched := atHead.dispatched
  have remainder := LineSplit.cut_remainder 13 10 (received (chunks.take k))
  obtain ⟨junk, cells⟩ := atHead.retained.written
  refine ⟨s, reached, atHead.input_eq, hasCommand_holds atHead.retained remainder, dispatched,
    ?_, ?_, LineSplit.cut_eq_none_iff.mp remainder, ?_⟩
  · rw [atHead.retained.usedLen, cells, Int.toNat_natCast, List.take_left' (List.length_map _)]
  · rw [dispatched]
    exact LineSplit.piece_of_split _ _ _
  · rw [dispatched]
    exact LineSplit.join_split _ _ _

/-- `PING` and the start of a second command, cut inside the first and its terminator. -/
def pingInPieces : List Chunk :=
  [⟨ascii ['P', 'I'], by decide, by decide⟩, ⟨ascii ['N', 'G', '\r'], by decide, by decide⟩,
    ⟨ascii ['\n', 'P', 'O'], by decide, by decide⟩]

theorem framing_pingInPieces :
    ∃ s, receiveRounds (.initial pingInPieces) 3 = some s ∧
      s.dispatched = [ascii ['P', 'I', 'N', 'G']] ∧
      s.recv.cells.take s.recv.usedLen.toNat = (ascii ['P', 'O']).map some := by
  have split : commands (received (pingInPieces.take 3)) =
      ([ascii ['P', 'I', 'N', 'G']], ascii ['P', 'O']) := by
    have cut : LineSplit.cut 13 10 (received (pingInPieces.take 3)) =
        some (ascii ['P', 'I', 'N', 'G'], ascii ['P', 'O']) := by decide
    unfold commands
    rw [LineSplit.split_of_cut cut, LineSplit.split_of_cut_none (by decide)]
  obtain ⟨s, reached, -, -, dispatched, retained, -⟩ :=
    framing pingInPieces (staysSmall_of_length (by decide)) 3 (by decide)
  rw [split] at dispatched retained
  exact ⟨s, reached, dispatched, retained⟩

end BitcoinServer.Command
