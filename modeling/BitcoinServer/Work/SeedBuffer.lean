import BitcoinServer.Work.ThreadCount

/-!
Contract: whether a seed fits the buffers that it passes through.

`raw_seed` has 64 bytes in both handlers, and `sscanf` stores a word of any length there with
its terminator. `work_handler` copies the 64 bytes in front of the NUL of `print_seed`, prints
them into the 98 bytes of `result` and sends 97.

Owns what each of the three steps needs of the seed's length: no length suits them all.
-/

namespace BitcoinServer.Work

open CText BitcoinServer.Command BitcoinServer.Solution

/-! ## The source's buffers -/

/-- A command string that `client_handler` gives to `soln_handler` or `work_handler`. -/
structure SeedCommand where
  characters : List UInt8
  noNul : ∀ byte ∈ characters, byte ≠ 0
  dispatched : dispatch characters = .solnHandler ∨ dispatch characters = .workHandler

/-- The format of the handler. -/
def SeedCommand.format (command : SeedCommand) : List Directive :=
  if dispatch command.characters = .workHandler then workFormat else solnFormat

/-- The word that `%s` stores into `raw_seed`, if it is reached. -/
def SeedCommand.word (command : SeedCommand) : Option (List UInt8) :=
  match (sscanf command.format (command.characters.drop 5))[1]? with
  | some (Item.text word) => some word
  | _ => none

/-- What `%s` writes from the start of `raw_seed` on. -/
def seedBytes : Option (List UInt8) → Cells
  | some word => (word ++ [0]).map some
  | none => []

/-- The 64 bytes of `raw_seed` after `sscanf`. -/
def rawSeed (word : Option (List UInt8)) : Cells := (seedBytes word ++ malloc 64).take 64

/-- `print_seed` after `bzero` and `memcpy`. -/
def printSeed (word : Option (List UInt8)) : Option Cells :=
  memcpy (List.replicate 65 (some 0)) 0 (rawSeed word) 0 64

/-- What `sprintf` formats; `none` where it reads a byte that was never written. -/
def formatted (host : Host) (difficulty : UInt32) (word : Option (List UInt8))
    (solution : UInt64) : Option (List UInt8) := do
  let seed ← readString (← printSeed word)
  some (ascii ['S', 'O', 'L', 'N', ' '] ++ (printHex 8 (ntohl host difficulty).toNat ++
    32 :: (seed ++ 32 :: (printHex 16 solution.toNat ++ ascii ['\r', '\n']))))

/-- The first 97 bytes of `result`, where the text with its terminator fits there. -/
def sentBytes (text : List UInt8) : Option Cells := do
  let result ← memcpy (malloc 98) 0 ((text ++ [0]).map some) 0 (text.length + 1)
  some (result.take 97)

/-- The 97 bytes for `send_message` are all formatted and end in CR LF. -/
def ReplyFits (word : Option (List UInt8)) : Prop :=
  ∀ host difficulty solution, ∃ text, formatted host difficulty word solution = some text ∧
    text.length = 97 ∧ sentBytes text = some (text.map some) ∧ [13, 10] <:+ text

/-- The buffers have the right size for the command. -/
structure SeedFits (command : SeedCommand) : Prop where
  stored : (seedBytes command.word).length ≤ 64
  copied : dispatch command.characters = .workHandler →
    ∀ cell ∈ rawSeed command.word, cell ≠ none
  reply : dispatch command.characters = .workHandler → ReplyFits command.word

/-! ## A seed of some length -/

section Word

variable (word : List UInt8)

theorem seedBytes_some : seedBytes (some word) = word.map some ++ [some 0] := List.map_append

theorem stored_iff : (seedBytes (some word)).length ≤ 64 ↔ word.length ≤ 63 := by
  rw [seedBytes_some, List.length_append, List.length_map, List.length_singleton]
  omega

theorem rawSeed_short (short : word.length ≤ 63) :
    rawSeed (some word) = word.map some ++ some 0 :: List.replicate (63 - word.length) none := by
  have length : (seedBytes (some word)).length = word.length + 1 := by
    rw [seedBytes_some, List.length_append, List.length_map, List.length_singleton]
  unfold rawSeed
  rw [List.take_append, List.take_of_length_le (by omega), length, seedBytes_some,
    List.append_assoc]
  show _ ++ (some 0 :: (List.replicate 64 none).take _) = _
  rw [List.take_replicate, Nat.min_eq_left (by omega),
    show 64 - (word.length + 1) = 63 - word.length by omega]

theorem rawSeed_long (long : 64 ≤ word.length) :
    rawSeed (some word) = (word.take 64).map some := by
  unfold rawSeed
  rw [seedBytes_some, List.append_assoc, List.take_append_of_le_length (by simpa), List.map_take]

@[simp] theorem length_rawSeed (seed : Option (List UInt8)) : (rawSeed seed).length = 64 := by
  unfold rawSeed
  rw [List.length_take, List.length_append, show (malloc 64).length = 64 from List.length_replicate]
  omega

/-- Every byte that is copied has been written where the word fills `raw_seed` up to its last
byte. -/
theorem copied_iff : (∀ cell ∈ rawSeed (some word), cell ≠ none) ↔ 63 ≤ word.length := by
  constructor
  · intro written
    by_contra short
    apply written none _ rfl
    rw [rawSeed_short word (by omega), List.mem_append, List.mem_cons, List.mem_replicate]
    exact Or.inr (Or.inr ⟨by omega, rfl⟩)
  · intro filled cell member
    by_cases long : 64 ≤ word.length
    · rw [rawSeed_long word long] at member
      obtain ⟨byte, -, rfl⟩ := List.mem_map.mp member
      exact Option.some_ne_none byte
    · rw [rawSeed_short word (by omega), show 63 - word.length = 0 by omega] at member
      rcases List.mem_append.mp member with letters | last
      · obtain ⟨byte, -, rfl⟩ := List.mem_map.mp letters
        exact Option.some_ne_none byte
      · rw [List.mem_singleton.mp last]
        exact Option.some_ne_none 0

/-- A copy from the start of one buffer to the start of another. -/
theorem memcpy_front (dst src : Cells) (n : Nat) (room : n ≤ dst.length)
    (stays : n ≤ src.length) : memcpy dst 0 src 0 n = some (src.take n ++ dst.drop n) := by
  have copied := memcpy_some dst src 0 0 n (by omega) (by omega)
  rw [List.take_zero, List.nil_append, List.drop_zero, Nat.zero_add] at copied
  exact copied

theorem printSeed_eq (seed : Option (List UInt8)) :
    printSeed seed = some (rawSeed seed ++ [some 0]) := by
  have copied := memcpy_front (List.replicate 65 (some 0)) (rawSeed seed) 64 (by simp) (by simp)
  rw [List.take_of_length_le (by simp)] at copied
  exact copied

/-- `%s` of `print_seed` prints the first 64 characters of the seed. -/
theorem readString_rawSeed (noNul : ∀ byte ∈ word, byte ≠ 0) :
    readString (rawSeed (some word) ++ [some 0]) = some (word.take 64) := by
  by_cases long : 64 ≤ word.length
  · rw [rawSeed_long word long]
    exact readString_some (fun byte member => noNul byte (List.mem_of_mem_take member)) []
  · rw [rawSeed_short word (by omega), List.append_assoc, List.cons_append,
      readString_some noNul, List.take_of_length_le (by omega)]

theorem formatted_eq (host : Host) (difficulty : UInt32) (solution : UInt64)
    (noNul : ∀ byte ∈ word, byte ≠ 0) :
    formatted host difficulty (some word) solution =
      some (ascii ['S', 'O', 'L', 'N', ' '] ++ (printHex 8 (ntohl host difficulty).toNat ++
        32 :: (word.take 64 ++ 32 :: (printHex 16 solution.toNat ++ ascii ['\r', '\n'])))) := by
  unfold formatted
  rw [printSeed_eq]
  show (readString (rawSeed (some word) ++ [some 0])).bind _ = _
  rw [readString_rawSeed word noNul]
  rfl

/-- Nothing can be printed from a `raw_seed` that was never stored into. -/
theorem formatted_none (host : Host) (difficulty : UInt32) (solution : UInt64) :
    formatted host difficulty none solution = none := by
  unfold formatted
  rw [printSeed_eq]
  rfl

theorem sentBytes_eq (text : List UInt8) (exact : text.length = 97) :
    sentBytes text = some (text.map some) := by
  have copied := memcpy_front (malloc 98) ((text ++ [0]).map some) (text.length + 1)
    (by rw [exact]; decide) (by simp)
  rw [List.take_of_length_le (by simp), List.map_append, List.append_assoc] at copied
  unfold sentBytes
  show (memcpy (malloc 98) 0 _ 0 ((text.length + 1 : Nat) : Int)).bind _ = _
  rw [List.map_append, copied]
  exact congrArg some (List.take_left' (by rw [List.length_map, exact]))

/-- The reply has its 97 characters exactly where the seed has 64 or more. -/
theorem replyFits_iff (noNul : ∀ byte ∈ word, byte ≠ 0) :
    ReplyFits (some word) ↔ 64 ≤ word.length := by
  constructor
  · intro fits
    obtain ⟨text, printed, length, -⟩ := fits .littleEndian 0 0
    rw [formatted_eq word .littleEndian 0 0 noNul] at printed
    rw [← Option.some.inj printed] at length
    simp [ascii] at length
    omega
  · intro long host difficulty solution
    refine ⟨_, formatted_eq word host difficulty solution noNul, ?length, ?_, ?_⟩
    case length =>
      simp [ascii]
      omega
    · apply sentBytes_eq
      simp [ascii]
      omega
    · refine ⟨ascii ['S', 'O', 'L', 'N', ' '] ++ (printHex 8 (ntohl host difficulty).toNat ++
        32 :: (word.take 64 ++ 32 :: printHex 16 solution.toNat)), ?_⟩
      simp only [List.append_assoc, List.cons_append]
      rfl

end Word

/-! ## The word of a command -/

def seedFormat : List Directive := [.hex none 32, .space, .text]

/-- The line starts, behind its head, with a number and this word. -/
def SeedCommand.ReadsSeed (command : SeedCommand) (word : List UInt8) : Prop :=
  ∃ difficulty, Reads seedFormat (command.characters.drop 5) [.number difficulty, .text word]

section Command

variable (command : SeedCommand)

/-- The items of an input that reads as a number and a word: the word stands in the input. -/
theorem seed_of_reads {input : List UInt8} {items : List Item}
    (reads : Reads seedFormat input items) :
    ∃ difficulty word, items = [.number difficulty, .text word] ∧ word <:+: input := by
  cases reads with
  | hex _ _ reads => cases reads with
  | space _ _ reads => cases reads with
  | @text _ _ word _ _ _ _ _ _ reads => cases reads with
  | nil =>
      refine ⟨_, word, rfl, ?_⟩
      simp only [← List.append_assoc]
      exact List.infix_append _ _ _

theorem SeedCommand.word_stored (word : List UInt8) : command.word = some word ↔
    (sscanf command.format (command.characters.drop 5))[1]? = some (.text word) := by
  unfold SeedCommand.word
  split
  next other present => rw [present, Option.some.injEq, Option.some.injEq, Item.text.injEq]
  next absent => exact iff_of_false (by nofun) (absent word)

/-- `%s` stores exactly the word that the line reads as, in either handler. -/
theorem SeedCommand.word_iff (word : List UInt8) :
    command.word = some word ↔ command.ReadsSeed word := by
  obtain ⟨second, split⟩ : ∃ second, command.format = seedFormat ++ second := by
    unfold SeedCommand.format
    split
    · exact ⟨[.space, .hex none 64, .space, .hex none 32], rfl⟩
    · exact ⟨[.space, .hex none 64], rfl⟩
  have stored := sscanf_last_iff seedFormat second (command.characters.drop 5) (i := 1) rfl
    (by decide) (.text word)
  rw [← split] at stored
  rw [command.word_stored word, stored]
  constructor
  · rintro ⟨items, reads, second⟩
    obtain ⟨difficulty, other, rfl, -⟩ := seed_of_reads reads
    obtain rfl := Item.text.inj (Option.some.inj second)
    exact ⟨difficulty, reads⟩
  · rintro ⟨difficulty, reads⟩
    exact ⟨_, reads, rfl⟩

theorem SeedCommand.noNul_word {word : List UInt8} (read : command.word = some word) :
    ∀ byte ∈ word, byte ≠ 0 := by
  obtain ⟨difficulty, reads⟩ := (command.word_iff word).mp read
  obtain ⟨_, other, items, inside⟩ := seed_of_reads reads
  simp only [List.cons.injEq, Item.text.injEq] at items
  obtain ⟨-, rfl, -⟩ := items
  exact fun byte member => command.noNul byte (List.mem_of_mem_drop (inside.subset member))

/-- A buffer that is longer than the line has room for the word and its terminator. -/
theorem length_storedSeed (second : List Directive) {input old : List UInt8}
    (room : input.length < old.length) :
    (storedText (sscanf (seedFormat ++ second) input) 1 old).length = old.length := by
  unfold storedText
  split
  next word stored =>
      obtain ⟨items, reads, isWord⟩ :=
        (sscanf_last_iff seedFormat second input rfl (by decide) (.text word)).mp stored
      obtain ⟨difficulty, other, rfl, inside⟩ := seed_of_reads reads
      obtain rfl := Item.text.inj (Option.some.inj isWord)
      have short := inside.length_le
      rw [List.length_append, List.length_cons, List.length_drop]
      omega
  next => rfl

/-- The first 64 bytes of a stored word print as its first 64 characters. -/
theorem cString_stored {word : List UInt8} (noNul : ∀ byte ∈ word, byte ≠ 0)
    (rest : List UInt8) : cString ((word ++ 0 :: rest).take 64 ++ [0]) = word.take 64 := by
  by_cases long : 64 ≤ word.length
  · rw [List.take_append_of_le_length long]
    exact cString_append_nul (fun byte member => noNul byte (List.mem_of_mem_take member)) []
  · have terminated : (word ++ 0 :: rest).take 64 =
        word ++ 0 :: rest.take (63 - word.length) := by
      rw [List.take_append, List.take_of_length_le (by omega),
        show 64 - word.length = 63 - word.length + 1 by omega, List.take_succ_cons]
    rw [terminated, List.append_assoc, List.cons_append, cString_append_nul noNul,
      List.take_of_length_le (by omega)]

/-- The text is the one that the job of the line answers with. -/
theorem resultText_of_formatted (host : Host) (vars : WorkVars) (solution : UInt64)
    (isWork : dispatch command.characters = .workHandler) (difficulty : UInt32)
    {text : List UInt8} (printed : formatted host difficulty command.word solution = some text) :
    resultText host difficulty (vars.scan command.characters).rawSeed solution = text := by
  cases read : command.word with
  | none =>
      rw [read, formatted_none] at printed
      exact nomatch printed
  | some word =>
      have noNul := command.noNul_word read
      have stored := (command.word_stored word).mp read
      unfold SeedCommand.format at stored
      rw [if_pos isWork] at stored
      have scanned : (vars.scan command.characters).rawSeed =
          word ++ 0 :: vars.rawSeed.drop (word.length + 1) := by
        show storedText (sscanf workFormat (command.characters.drop 5)) 1 vars.rawSeed = _
        rw [storedText, stored]
      rw [read, formatted_eq word host difficulty solution noNul] at printed
      unfold resultText
      simp only [scanned, cString_stored noNul]
      exact Option.some.inj printed

end Command

/-- The buffers have the right size exactly for the SOLN lines whose seed, where it is read at
all, has fewer than 64 characters; for a WORK line they never have. -/
theorem seedFits_iff (command : SeedCommand) : SeedFits command ↔
    dispatch command.characters = .solnHandler ∧
      ∀ word, command.ReadsSeed word → word.length ≤ 63 := by
  constructor
  · intro fits
    constructor
    · rcases command.dispatched with isSoln | isWork
      · exact isSoln
      · -- The word would have at least 64 characters for the reply and at most 63 for `raw_seed`.
        have stored := fits.stored
        have reply := fits.reply isWork
        cases read : command.word with
        | none =>
            rw [read] at reply
            obtain ⟨text, printed, -⟩ := reply .littleEndian 0 0
            rw [formatted_none] at printed
            exact nomatch printed
        | some word =>
            rw [read] at stored reply
            have short := (stored_iff word).mp stored
            have long := (replyFits_iff word (command.noNul_word read)).mp reply
            omega
    · intro word reads
      have stored := fits.stored
      rw [(command.word_iff word).mpr reads] at stored
      exact (stored_iff word).mp stored
  · rintro ⟨isSoln, short⟩
    have notWork : dispatch command.characters ≠ .workHandler := by
      rw [isSoln]
      nofun
    refine ⟨?_, fun isWork => absurd isWork notWork, fun isWork => absurd isWork notWork⟩
    cases read : command.word with
    | none => exact Nat.zero_le _
    | some word => exact (stored_iff word).mpr (short word ((command.word_iff word).mp read))

/-- A seed of 64 digits, the length that `print_seed` has room for, stores 65 bytes. -/
def digitSeedCommand : SeedCommand where
  characters := (WorkCommand.ofFields (.printed 8 0x1fffffff) (.printed 64 0) (.printed 16 0)
    (.printed 2 1)).characters
  noNul := WorkCommand.noNul _
  dispatched := Or.inr (WorkCommand.dispatched _)

theorem seedFits_digits : ¬ ∀ command : SeedCommand, SeedFits command := by
  intro always
  have stored := (always digitSeedCommand).stored
  have reads : digitSeedCommand.word = some (printHex 64 0) := by decide +kernel
  rw [reads] at stored
  exact absurd stored (by decide)

end BitcoinServer.Work
