import BitcoinServer.Command.Framing
import BitcoinServer.Command.Reply

/-!
Contract: what a client that frames like the server reads out of a reply of
`send_formatted`.

The frame has 45 bytes and CR LF in its last two. Behind the four characters of the head and
the tab there is room for 38 characters; the copy takes 40 of the message, and CR LF
overwrites the last two of them.

Owns the one command of every frame and the messages of which the frame carries all that the
copy takes.
-/

namespace BitcoinServer.Command

open CText

/-- Characters of a reply. -/
structure ReplyText where
  characters : List UInt8
  visible : ∀ byte ∈ characters, byte ≠ 0 ∧ byte ≠ 13 ∧ byte ≠ 10

/-- The four characters of `info`. -/
structure ReplyInfo extends ReplyText where
  length_eq : characters.length = 4

/-- The message as the frame carries it: 38 characters at most, and blanks behind fewer. -/
def carried (msg : List UInt8) : List UInt8 :=
  msg.take 38 ++ List.replicate (38 - msg.length) 32

theorem length_carried (msg : List UInt8) : (carried msg).length = 38 := by
  unfold carried
  rw [List.length_append, List.length_take, List.length_replicate]
  omega

/-! ## The bytes of a frame -/

/-- Two stores at the end of a buffer. -/
theorem set_last_two {α : Type} (cells : List α) (n : Nat) (size : cells.length = n + 2)
    (first second : α) :
    (cells.set n first).set (n + 1) second = cells.take n ++ [first, second] := by
  obtain ⟨x, y, last⟩ : ∃ x y, cells.drop n = [x, y] :=
    List.length_eq_two.mp (by rw [List.length_drop]; omega)
  have front : (cells.take n).length = n := by
    rw [List.length_take]
    omega
  have split : cells = cells.take n ++ [x, y] := by rw [← last, List.take_append_drop]
  conv => lhs; rw [split]
  rw [List.set_append_right _ _ (by omega), List.set_append_right _ _ (by omega), front,
    Nat.sub_self, Nat.add_sub_cancel_left]
  rfl

theorem sendFormatted_eq {info : List UInt8} (four : info.length = 4) (msg : List UInt8) :
    sendFormatted info msg = info ++ 9 :: carried msg ++ [13, 10] := by
  have body : (msg.take 40 ++ List.replicate (40 - (msg.take 40).length) 32).take 38 =
      carried msg := by
    rw [List.take_append, List.take_take, List.take_replicate, List.length_take, carried]
    congr 2
    omega
  have size : (info ++ [9] ++ msg.take 40 ++
      List.replicate (40 - (msg.take 40).length) 32).length = 43 + 2 := by
    simp only [List.length_append, List.length_take, List.length_replicate, List.length_singleton]
    omega
  have head : (info ++ [9]).length = 5 := by rw [List.length_append, four]; rfl
  have whole : info.take 4 = info := List.take_of_length_le (by omega)
  unfold sendFormatted
  rw [whole, set_last_two _ 43 size, List.append_assoc (info ++ [9]), List.take_append, head,
    List.take_of_length_le (by omega), body, List.append_assoc info]
  rfl

theorem length_sendFormatted {info : List UInt8} (four : info.length = 4) (msg : List UInt8) :
    (sendFormatted info msg).length = 45 := by
  rw [sendFormatted_eq four]
  simp only [List.length_append, List.length_cons, List.length_nil, length_carried, four]

/-! ## Its one command -/

section Frame

variable (info : ReplyInfo) (msg : ReplyText)

/-- The bytes of the frame as one read. -/
def frameChunk : Chunk where
  bytes := sendFormatted info.characters msg.characters
  nonempty := by
    apply List.ne_nil_of_length_pos
    rw [length_sendFormatted info.length_eq]
    decide
  fits := by
    rw [length_sendFormatted info.length_eq]
    decide

/-- In an empty receive buffer the frame is one command, and nothing is left over. -/
def ParsesAs (chunk : Chunk) (command : List UInt8) : Prop :=
  ∃ joined cmd rest, joinClientCommand .initial chunk.buffer = some joined ∧
    getCommand joined = some (some (cmd, rest)) ∧ readString cmd = some command ∧
    getCommand rest = some none ∧ rest.usedLen = 0

/-- The command is the head, a tab, the first 40 characters of the message and blanks. -/
def CarriesReason : Prop :=
  ∃ blanks, ParsesAs (frameChunk info msg) (info.characters ++
    9 :: (msg.characters.take 40 ++ List.replicate blanks 32))

theorem visible_frame :
    ∀ byte ∈ info.characters ++ 9 :: carried msg.characters,
      byte ≠ 0 ∧ byte ≠ 13 ∧ byte ≠ 10 := by
  intro byte member
  simp only [carried, List.mem_append, List.mem_cons] at member
  rcases member with inInfo | rfl | inText | blank
  · exact info.visible byte inInfo
  · decide
  · exact msg.visible byte (List.mem_of_mem_take inText)
  · rw [(List.mem_replicate.mp blank).2]
    decide

theorem noNul_frame : ∀ byte ∈ sendFormatted info.characters msg.characters, byte ≠ 0 := by
  intro byte member
  rw [sendFormatted_eq info.length_eq] at member
  rcases List.mem_append.mp member with front | terminator
  · exact (visible_frame info msg byte front).1
  · simp only [List.mem_cons, List.not_mem_nil, or_false] at terminator
    rcases terminator with rfl | rfl
    · decide
    · decide

/-- Every frame is read as its first 43 bytes. -/
theorem frame_parsesAs : ParsesAs (frameChunk info msg)
    (info.characters ++ 9 :: carried msg.characters) := by
  have visible := visible_frame info msg
  have bytes : (frameChunk info msg).bytes =
      info.characters ++ 9 :: carried msg.characters ++ [13, 10] :=
    sendFormatted_eq info.length_eq msg.characters
  have effective : (frameChunk info msg).eff =
      info.characters ++ 9 :: carried msg.characters ++ [13, 10] := by
    have noNul : ∀ byte ∈ (frameChunk info msg).bytes, byte ≠ 0 := noNul_frame info msg
    rw [← bytes]
    exact List.takeWhile_eq_self_iff.mpr (by simpa using noNul)
  obtain ⟨joined, join, holds⟩ := joinClientCommand_holds holds_initial (frameChunk info msg)
    (by
      rw [effective, ← bytes]
      show _ + (sendFormatted _ _).length < _
      rw [length_sendFormatted info.length_eq]
      decide)
  rw [List.nil_append, effective] at holds
  obtain ⟨cmd, rest, taken, read, left⟩ :=
    getCommand_line holds fun byte member => (visible byte member).2.1
  exact ⟨joined, cmd, rest, join, taken, read, getCommand_of_none left rfl, left.usedLen⟩

theorem ParsesAs.unique {chunk : Chunk} {command other : List UInt8}
    (parses : ParsesAs chunk command) (parsesOther : ParsesAs chunk other) : command = other := by
  obtain ⟨joined, cmd, rest, join, taken, read, -⟩ := parses
  obtain ⟨joined', cmd', rest', join', taken', read', -⟩ := parsesOther
  obtain rfl := Option.some.inj (join.symm.trans join')
  obtain ⟨rfl, -⟩ := Prod.mk.inj (Option.some.inj (Option.some.inj (taken.symm.trans taken')))
  exact Option.some.inj (read.symm.trans read')

end Frame

/-- The frame carries the 40 characters exactly for the messages that have 38 at most. -/
theorem carriesReason_iff (info : ReplyInfo) (msg : ReplyText) :
    CarriesReason info msg ↔ msg.characters.length ≤ 38 := by
  constructor
  · rintro ⟨blanks, parses⟩
    have length := congrArg List.length (parses.unique (frame_parsesAs info msg))
    simp only [List.length_append, List.length_cons, List.length_take, List.length_replicate,
      length_carried] at length
    omega
  · intro short
    have parses := frame_parsesAs info msg
    rw [carried, List.take_of_length_le short] at parses
    refine ⟨38 - msg.characters.length, ?_⟩
    rwa [List.take_of_length_le (by omega)]

/-- A reason of 39 letters. -/
def longReason : ReplyText where
  characters := List.replicate 39 97
  visible := by
    intro byte member
    rw [(List.mem_replicate.mp member).2]
    decide

def errorInfo : ReplyInfo where
  characters := errorHead
  visible := by decide +kernel
  length_eq := rfl

/-- Its last letter is lost. -/
theorem carriesReason_cut : ¬ ∀ info msg, CarriesReason info msg := by
  intro always
  obtain ⟨blanks, parses⟩ := always errorInfo longReason
  have length := congrArg List.length (parses.unique (frame_parsesAs errorInfo longReason))
  simp only [longReason, List.length_append, List.length_cons, List.length_take,
    List.length_replicate, length_carried] at length
  omega

end BitcoinServer.Command
