import BitcoinServer.Command.ReplyFrame
import BitcoinServer.Command.Segmentation

/-!
Contract: the lines that the server writes.

The handlers of `handler.c` that only reply are given by the messages that they send,
in order; the ones of `send_formatted` all go through one frame. A reply line has no
NUL, no CR and no LF before the CR LF at its end, and is short.

Owns that lines of this kind go over a connection as they are: however their bytes are
cut into reads, the receive loop of the other side takes exactly these lines out of them
and keeps nothing back.
-/

namespace BitcoinServer.Command

open CText

/-! ## The handlers that only reply -/

/-- `"PONG\r\n"`. -/
def pongReply : List UInt8 := ascii ['P', 'O', 'N', 'G', '\r', '\n']

/-- `"OKAY"`. -/
def okayHead : List UInt8 := ascii ['O', 'K', 'A', 'Y']

/-- `ping_handler`. -/
def pingHandler : List (List UInt8) := [pongReply]

/-- `pong_handler`. -/
def pongHandler : List (List UInt8) :=
  [sendFormatted errorHead (ascii
    ['P', 'O', 'N', 'G', ' ', 'i', 's', ' ', 's', 't', 'r', 'i', 'c', 't', 'l', 'y', ' ', 'r',
      'e', 's', 'e', 'r', 'v', 'e', 'd', ' ', 'f', 'o', 'r', ' ', 's', 'e', 'r', 'v', 'e', 'r'])]

/-- `okay_handler`; 39 is the apostrophe. -/
def okayHandler : List (List UInt8) :=
  [sendFormatted errorHead (ascii ['D', 'u', 'd', 'e', ' ', 'i', 't'] ++ 39 :: ascii
    ['s', ' ', 'n', 'o', 't', ' ', 'o', 'k', 'a', 'y', ' ', 't', 'o', ' ', 's', 'e', 'n', 'd',
      ' ', 'O', 'K', 'A', 'Y', ' ', 'o', 'k', 'a', 'y', '?'])]

/-- `erro_handler`. -/
def erroHandler : List (List UInt8) :=
  [sendFormatted errorHead (ascii
    ['O', 'n', 'l', 'y', ' ', 'I', ' ', 'c', 'a', 'n', ' ', 's', 'e', 'n', 'd', ' ', 'Y', 'O',
      'U', ' ', 'e', 'r', 'r', 'o', 'r', 's', ' ', '=', '.', '='])]

/-- `unkn_handler`. -/
def unknHandler : List (List UInt8) :=
  [sendFormatted errorHead (ascii
    ['U', 'n', 'k', 'n', 'o', 'w', 'n', ' ', 'c', 'o', 'm', 'm', 'a', 'n', 'd', ' ', 'o', 'r',
      ' ', 'f', 'o', 'r', 'm', 'a', 't'])]

/-- `cust_handler`. -/
def custHandler (custHead custMsg : List UInt8) : List (List UInt8) :=
  [sendFormatted custHead custMsg]

/-- `"Server is full of WORK"`, the `cust_msg` of the one call of `cust_handler`. -/
def fullOfWork : List UInt8 :=
  ascii ['S', 'e', 'r', 'v', 'e', 'r', ' ', 'i', 's', ' ', 'f', 'u', 'l', 'l', ' ', 'o', 'f', ' ',
    'W', 'O', 'R', 'K']

/-- `slep_handler`: a message before its `sleep(3)` and one behind it. -/
def slepHandler : List (List UInt8) :=
  [sendFormatted okayHead (ascii
    ['s', 'l', 'e', 'e', 'p', 'i', 'n', 'g', ' ', '3', ' ', 's', 'e', 'c', 'o', 'n', 'd', 's',
      '.', '.']),
    sendFormatted okayHead (ascii
      ['I', ' ', 'j', 'u', 's', 't', ' ', 'w', 'o', 'k', 'e', ' ', 'u', 'p', '!'])]

/-! ## Reply lines -/

/-- A line that a reader with the server's framing takes for one command. -/
def IsReply (bytes : List UInt8) : Prop :=
  ∃ text : ReplyText, text.characters.length ≤ 95 ∧ bytes = text.characters ++ [13, 10]

/-- A line without its CR LF. -/
def body (bytes : List UInt8) : List UInt8 := bytes.take (bytes.length - 2)

theorem body_append (characters : List UInt8) : body (characters ++ [13, 10]) = characters := by
  unfold body
  rw [List.length_append]
  exact List.take_left

theorem isReply_sendFormatted {info msg : List UInt8} (four : info.length = 4)
    (visible : ∀ byte ∈ info ++ msg, byte ≠ 0 ∧ byte ≠ 13 ∧ byte ≠ 10) :
    IsReply (sendFormatted info msg) := by
  let head : ReplyInfo :=
    ⟨⟨info, fun byte member => visible byte (List.mem_append_left msg member)⟩, four⟩
  let text : ReplyText :=
    ⟨msg, fun byte member => visible byte (List.mem_append_right info member)⟩
  refine ⟨⟨info ++ 9 :: carried msg, visible_frame head text⟩, ?_, sendFormatted_eq four msg⟩
  show (info ++ 9 :: carried msg).length ≤ 95
  rw [List.length_append, List.length_cons, length_carried, four]
  decide

theorem isReply_pong : IsReply pongReply :=
  ⟨⟨ascii ['P', 'O', 'N', 'G'], by decide +kernel⟩, by decide, rfl⟩

theorem isReply_okay : IsReply okayReply :=
  ⟨⟨ascii ['O', 'K', 'A', 'Y'], by decide +kernel⟩, by decide, rfl⟩

/-! ## On the wire -/

section Wire

variable {lines : List (List UInt8)}

theorem flatten_eq_flatMap_body (replies : ∀ line ∈ lines, IsReply line) :
    lines.flatten = (lines.map body).flatMap fun line => line ++ [13, 10] := by
  induction lines with
  | nil => rfl
  | cons line lines inductionHypothesis =>
      obtain ⟨text, _, isLine⟩ := replies line List.mem_cons_self
      rw [List.flatten_cons, List.map_cons, List.flatMap_cons,
        inductionHypothesis fun other member => replies other (List.mem_cons_of_mem line member),
        isLine, body_append]

theorem visible_body (replies : ∀ line ∈ lines, IsReply line) :
    ∀ line ∈ lines.map body,
      line.length ≤ 95 ∧ ∀ byte ∈ line, byte ≠ 0 ∧ byte ≠ 13 ∧ byte ≠ 10 := by
  intro line member
  obtain ⟨bytes, inLines, rfl⟩ := List.mem_map.mp member
  obtain ⟨text, short, isLine⟩ := replies bytes inLines
  rw [isLine, body_append]
  exact ⟨short, text.visible⟩

theorem noNul_flatten (replies : ∀ line ∈ lines, IsReply line) :
    ∀ byte ∈ lines.flatten, byte ≠ 0 := by
  intro byte member
  obtain ⟨line, inLines, inLine⟩ := List.mem_flatten.mp member
  obtain ⟨text, _, rfl⟩ := replies line inLines
  rcases List.mem_append.mp inLine with inText | atEnd
  · exact (text.visible byte inText).1
  · have terminator : ∀ byte ∈ [(13 : UInt8), 10], byte ≠ 0 := by simp
    exact terminator byte atEnd

theorem received_lines (replies : ∀ line ∈ lines, IsReply line) {chunks : List Chunk}
    (cuts : Cuts chunks lines.flatten) : received chunks = lines.flatten := by
  have noNul := noNul_flatten replies
  have trail : NulsTrail lines.flatten :=
    List.pairwise_iff_forall_sublist.mpr fun sublist isNul =>
      absurd isNul (noNul _ (sublist.subset List.mem_cons_self))
  rw [received_of_nulsTrail trail cuts, cString_of_noNul noNul]

/-- Reply lines never fill the buffer of the other side: at most one is kept back. -/
theorem staysSmall_lines (replies : ∀ line ∈ lines, IsReply line) {chunks : List Chunk}
    (cuts : Cuts chunks lines.flatten) : StaysSmall chunks := by
  intro k chunk present
  have stream := received_split present
  rw [received_lines replies cuts, flatten_eq_flatMap_body replies] at stream
  have visible := visible_body replies
  have kept := LineSplit.length_remainder_of_lines 10
    (fun line member byte inLine => ((visible line member).2 byte inLine).2.1)
    (fun line member => (visible line member).1) stream
  have read := chunk.length_eff
  rw [bufferLen] at read
  show (LineSplit.split 13 10 _).2.length + _ < 2 ^ 30
  omega

/-- However the bytes of reply lines are cut, the receive loop takes out these lines. -/
theorem receiveRounds_lines (replies : ∀ line ∈ lines, IsReply line) {chunks : List Chunk}
    (cuts : Cuts chunks lines.flatten) :
    ∃ s, receiveRounds (.initial chunks) chunks.length = some s ∧
      s.dispatched = lines.map body ∧ s.recv.retained = [] := by
  have visible := visible_body replies
  have split := LineSplit.split_lines 10
    (fun line member byte inLine => ((visible line member).2 byte inLine).2.1)
  rw [← flatten_eq_flatMap_body replies] at split
  obtain ⟨s, ran, dispatched, retained⟩ := receiveRounds_all (staysSmall_lines replies cuts)
  unfold commands at dispatched retained
  rw [received_lines replies cuts, split] at dispatched retained
  exact ⟨s, ran, dispatched, retained⟩

end Wire

end BitcoinServer.Command
