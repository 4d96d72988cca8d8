import BitcoinServer.Command.Reply
import BitcoinServer.Solution.Target

/-!
Contract: the verdict of `soln_handler`.

SHA-256 is a parameter, any function from byte strings to 32 bytes. The local
variables of the handler are not initialised by the source, so their old values
are parameters too; what follows `raw_seed` in memory counts as part of it, so
that the 64 characters and the terminator of a seed find room.

Owns the numeric reading of `sha256_compare` and the verdict on a well-formed
command, as a comparison of two numbers.
-/

namespace BitcoinServer.Solution

open CText BitcoinServer.Command

/-! ## The source's functions -/

/-- `get_x`: the seed and the eight bytes of the solution, copied from memory where
`ntohl(solution)`, whose argument is 32 bits wide, equals `solution`. -/
def getX (host : Host) (seed : Uint256) (solution : UInt64) : List UInt8 :=
  seed.bytes ++
    if (ntohl host solution.toUInt32).toUInt64 ≠ solution then
      ((List.range 8).map fun i => ((solution >>> UInt64.ofNat (8 * i)) &&& 0xFF).toUInt8).reverse
    else host.memory 8 solution.toNat

/-- The loop of `sha256_compare`. -/
def compareLoop : List UInt8 → List UInt8 → Int
  | byte1 :: digest1, byte2 :: digest2 =>
      if byte1 < byte2 then -1
      else if byte2 < byte1 then 1
      else compareLoop digest1 digest2
  | _, _ => 0

/-- `sha256_compare`. -/
def sha256Compare (digest1 digest2 : Uint256) : Int :=
  compareLoop digest1.bytes digest2.bytes

/-- `buf` of `is_valid_soln`: the hash of the hash of `x`. -/
def doubleHash (sha : List UInt8 → Uint256) (x : List UInt8) : Uint256 :=
  sha (sha x).bytes

/-- `is_valid_soln`. -/
def isValidSoln (sha : List UInt8 → Uint256) (host : Host) (target seed : Uint256)
    (solution : UInt64) : Int :=
  sha256Compare (doubleHash sha (getX host seed solution)) target

/-- What `sscanf` in `soln_handler` stores into. -/
structure SolnVars where
  difficulty : UInt32
  rawSeed : List UInt8
  solution : UInt64

/-- `"%x %s %lx"`. -/
def solnFormat : List Directive := [.hex none 32, .space, .text, .space, .hex none 64]

/-- `sscanf(command_str + 5, "%x %s %lx", &difficulty, raw_seed, &solution)`. -/
def SolnVars.scan (vars : SolnVars) (commandStr : List UInt8) : SolnVars :=
  let items := sscanf solnFormat (commandStr.drop 5)
  { difficulty := UInt32.ofNat (storedNumber items 0 vars.difficulty.toNat)
    rawSeed := storedText items 1 vars.rawSeed
    solution := UInt64.ofNat (storedNumber items 2 vars.solution.toNat) }

/-- `"Not a valid solution"`. -/
def notValid : List UInt8 :=
  ascii ['N', 'o', 't', ' ', 'a', ' ', 'v', 'a', 'l', 'i', 'd', ' ', 's', 'o', 'l', 'u', 't', 'i',
    'o', 'n']

/-- `soln_handler`: the bytes that it sends. -/
def solnHandler (host : Host) (sha : List UInt8 → Uint256) (vars : SolnVars)
    (commandStr : List UInt8) : List UInt8 :=
  let scanned := vars.scan commandStr
  let target := getTarget (ntohl host scanned.difficulty)
  let seed := seedFromRaw scanned.rawSeed
  if isValidSoln sha host target seed scanned.solution = -1 then okayReply
  else sendFormatted errorHead notValid

/-! ## Comparison -/

/-- The first difference of two strings of one length decides which number is the
smaller one. -/
theorem compareLoop_eq_sign {digest1 digest2 : List UInt8}
    (sameLength : digest1.length = digest2.length) :
    compareLoop digest1 digest2 =
      Int.sign ((BigEndian.toNat digest1 : Int) - BigEndian.toNat digest2) := by
  induction digest1 generalizing digest2 with
  | nil =>
      rw [List.eq_nil_of_length_eq_zero sameLength.symm]
      rfl
  | cons byte1 digest1 inductionHypothesis =>
      match digest2, sameLength with
      | byte2 :: digest2, sameLength =>
          have tailLength : digest1.length = digest2.length := Nat.succ_inj.mp sameLength
          rw [compareLoop]
          by_cases smaller : byte1 < byte2
          · have below := BigEndian.toNat_cons_lt tailLength smaller
            rw [if_pos smaller, Int.sign_eq_neg_one_of_neg (by omega)]
          · rw [if_neg smaller]
            by_cases greater : byte2 < byte1
            · have above := BigEndian.toNat_cons_lt tailLength.symm greater
              rw [if_pos greater, Int.sign_eq_one_of_pos (by omega)]
            · have same : byte1 = byte2 :=
                UInt8.le_antisymm (UInt8.not_lt.mp greater) (UInt8.not_lt.mp smaller)
              rw [if_neg greater, inductionHypothesis tailLength, BigEndian.toNat_cons,
                BigEndian.toNat_cons, same, tailLength]
              congr 1
              omega

theorem sha256Compare_eq_sign (digest1 digest2 : Uint256) :
    sha256Compare digest1 digest2 = Int.sign ((digest1.toNat : Int) - digest2.toNat) :=
  compareLoop_eq_sign (by rw [digest1.length_eq, digest2.length_eq])

theorem sha256Compare_eq_neg_one_iff (digest1 digest2 : Uint256) :
    sha256Compare digest1 digest2 = -1 ↔ digest1.toNat < digest2.toNat := by
  rw [sha256Compare_eq_sign, Int.sign_eq_neg_one_iff_neg]
  omega

theorem sha256Compare_eq_zero_iff (digest1 digest2 : Uint256) :
    sha256Compare digest1 digest2 = 0 ↔ digest1.toNat = digest2.toNat := by
  rw [sha256Compare_eq_sign, Int.sign_eq_zero_iff_zero]
  omega

theorem sha256Compare_eq_one_iff (digest1 digest2 : Uint256) :
    sha256Compare digest1 digest2 = 1 ↔ digest2.toNat < digest1.toNat := by
  rw [sha256Compare_eq_sign, Int.sign_eq_one_iff_pos]
  omega

theorem sha256Compare_nonpos_iff (digest1 digest2 : Uint256) :
    sha256Compare digest1 digest2 ≤ 0 ↔ digest1.toNat ≤ digest2.toNat := by
  rw [sha256Compare_eq_sign]
  rcases Int.lt_trichotomy ((digest1.toNat : Int) - digest2.toNat) 0 with below | same | above
  · rw [Int.sign_eq_neg_one_of_neg below]
    omega
  · rw [same]
    exact iff_of_true (by decide) (by omega)
  · rw [Int.sign_eq_one_of_pos above]
    omega

theorem sha256Compare_swap (digest1 digest2 : Uint256) :
    sha256Compare digest2 digest1 = -sha256Compare digest1 digest2 := by
  rw [sha256Compare_eq_sign, sha256Compare_eq_sign, ← Int.sign_neg, Int.neg_sub]

/-- The verdict is about the hash of the hash. -/
theorem isValidSoln_eq_neg_one_iff (sha : List UInt8 → Uint256) (host : Host)
    (target seed : Uint256) (solution : UInt64) :
    isValidSoln sha host target seed solution = -1 ↔
      (sha (sha (getX host seed solution)).bytes).toNat < target.toNat :=
  sha256Compare_eq_neg_one_iff _ _

/-- Digests compare as the numbers that their bytes spell, and a verdict is a comparison of the
double hash with the target. -/
theorem sha256Compare_numeric (x y : Uint256) :
    (sha256Compare x y = -1 ↔ x.toNat < y.toNat) ∧
    (sha256Compare x y = 0 ↔ x.toNat = y.toNat) ∧
    (sha256Compare x y = 1 ↔ y.toNat < x.toNat) ∧
    (sha256Compare y x = -sha256Compare x y) ∧
    (∀ z, sha256Compare x y = -1 ∧ sha256Compare y z = -1 → sha256Compare x z = -1) ∧
    (∀ z, sha256Compare x y ≤ 0 ∧ sha256Compare y z ≤ 0 → sha256Compare x z ≤ 0) ∧
    ∀ (sha : List UInt8 → Uint256) (host : Host) (target seed : Uint256) (solution : UInt64),
      isValidSoln sha host target seed solution = -1 ↔
        (sha (sha (getX host seed solution)).bytes).toNat < target.toNat := by
  refine ⟨sha256Compare_eq_neg_one_iff x y, sha256Compare_eq_zero_iff x y,
    sha256Compare_eq_one_iff x y, sha256Compare_swap x y, ?strict, ?weak, ?verdict⟩
  case strict =>
    rintro z ⟨first, second⟩
    rw [sha256Compare_eq_neg_one_iff] at first second ⊢
    exact Nat.lt_trans first second
  case weak =>
    rintro z ⟨first, second⟩
    rw [sha256Compare_nonpos_iff] at first second ⊢
    exact Nat.le_trans first second
  case verdict =>
    intro sha host target seed solution
    exact isValidSoln_eq_neg_one_iff sha host target seed solution

/-! ## The verdict -/

/-- The fields of a well-formed SOLN command. -/
structure SolnFields where
  difficulty : HexField 8
  seed : HexField 64
  solution : HexField 16

/-- `SOLN`, the difficulty, the seed and the solution, separated by blanks. -/
def SolnFields.command (fields : SolnFields) : List UInt8 :=
  ascii ['S', 'O', 'L', 'N', ' '] ++ (fields.difficulty.digits ++
    32 :: (fields.seed.digits ++ 32 :: fields.solution.digits))

theorem SolnFields.length_command (fields : SolnFields) : fields.command.length = 95 := by
  unfold SolnFields.command
  rw [List.length_append, List.length_append, List.length_cons, List.length_append,
    List.length_cons, fields.difficulty.length_eq, fields.seed.length_eq,
    fields.solution.length_eq]
  rfl

/-- No byte of a well-formed command is a NUL, a CR or an LF. -/
theorem SolnFields.visible_command (fields : SolnFields) :
    ∀ byte ∈ fields.command, byte ≠ 0 ∧ byte ≠ 13 ∧ byte ≠ 10 := by
  have digit : ∀ byte, IsHex byte → byte ≠ 0 ∧ byte ≠ 13 ∧ byte ≠ 10 :=
    forall_byte (by decide +kernel)
  have letter : ∀ byte ∈ ascii ['S', 'O', 'L', 'N', ' '], byte ≠ 0 ∧ byte ≠ 13 ∧ byte ≠ 10 := by
    decide +kernel
  have blank : (32 : UInt8) ≠ 0 ∧ (32 : UInt8) ≠ 13 ∧ (32 : UInt8) ≠ 10 := by decide
  intro byte member
  unfold SolnFields.command at member
  simp only [List.mem_append, List.mem_cons] at member
  rcases member with head | inDifficulty | rfl | inSeed | rfl | inSolution
  · exact letter byte head
  · exact digit byte (fields.difficulty.isHex byte inDifficulty)
  · exact blank
  · exact digit byte (fields.seed.isHex byte inSeed)
  · exact blank
  · exact digit byte (fields.solution.isHex byte inSolution)

/-- `sscanf` finds the three fields. -/
theorem SolnVars.scan_command (vars : SolnVars) (fields : SolnFields) :
    vars.scan fields.command =
      { difficulty := UInt32.ofNat fields.difficulty.number
        rawSeed := fields.seed.digits ++ 0 :: vars.rawSeed.drop 65
        solution := UInt64.ofNat fields.solution.number } := by
  have items : sscanf solnFormat (fields.difficulty.digits ++ 32 :: (fields.seed.digits ++
      32 :: (fields.solution.digits ++ []))) =
      [.number fields.difficulty.number, .text fields.seed.digits,
        .number fields.solution.number] := by
    rw [solnFormat,
      fields.difficulty.sscanf_hex_digits (by decide) (by decide) (by decide) _ _ (head_blank _),
      fields.seed.sscanf_space_digits (by decide),
      fields.seed.sscanf_text_digits (by decide) _ _ (head_blank _),
      fields.solution.sscanf_space_digits (by decide),
      fields.solution.sscanf_hex_digits (by decide) (by decide) (by decide) _ _ (by simp)]
    rfl
  rw [List.append_nil] at items
  have behind : fields.command.drop 5 = fields.difficulty.digits ++ 32 ::
      (fields.seed.digits ++ 32 :: fields.solution.digits) := rfl
  unfold SolnVars.scan
  simp only [behind, items, storedNumber, storedText, List.getElem?_cons_zero,
    List.getElem?_cons_succ, fields.seed.length_eq]

/-- The reply to a well-formed command, from its decoded fields. -/
theorem solnHandler_command (host : Host) (sha : List UInt8 → Uint256) (vars : SolnVars)
    (fields : SolnFields) :
    solnHandler host sha vars fields.command =
      if isValidSoln sha host (getTarget (ntohl host (UInt32.ofNat fields.difficulty.number)))
          (seedOf fields.seed) (UInt64.ofNat fields.solution.number) = -1 then okayReply
      else sendFormatted errorHead notValid := by
  unfold solnHandler
  simp only [vars.scan_command fields, seedFromRaw_digits]

/-- The command is accepted exactly when the hash is below the target, and answered
with `ERRO` otherwise. -/
theorem solnHandler_verdict (sha : List UInt8 → Uint256) (vars : SolnVars) (fields : SolnFields)
    (atLeast : 3 ≤ alphaField fields.difficulty) :
    let x := getX .littleEndian (seedOf fields.seed) (UInt64.ofNat fields.solution.number)
    let reply := solnHandler .littleEndian sha vars fields.command
    let accepted := (sha (sha x).bytes).toNat <
      betaField fields.difficulty * 2 ^ (8 * (alphaField fields.difficulty - 3)) % 2 ^ 256
    (reply = okayReply ↔ accepted) ∧ (¬ accepted → reply = sendFormatted errorHead notValid) := by
  obtain ⟨alpha, beta⟩ := ntohl_field fields.difficulty
  intro x reply accepted
  have target : (getTarget (ntohl .littleEndian (UInt32.ofNat fields.difficulty.number))).toNat =
      betaField fields.difficulty * 2 ^ (8 * (alphaField fields.difficulty - 3)) % 2 ^ 256 := by
    rw [toNat_getTarget _ (alpha ▸ atLeast), alpha, beta]
  have reply_eq : reply =
      if accepted then okayReply else sendFormatted errorHead notValid := by
    show solnHandler .littleEndian sha vars fields.command = _
    rw [solnHandler_command]
    apply if_congr _ rfl rfl
    rw [isValidSoln_eq_neg_one_iff, target]
  rw [reply_eq]
  by_cases holds : accepted
  · rw [if_pos holds]
    exact ⟨iff_of_true rfl holds, fun fails => absurd holds fails⟩
  · rw [if_neg holds]
    exact ⟨iff_of_false (by decide) holds, fun _ => rfl⟩

theorem length_easyDifficulty : (ascii ['2', '0', 'f', 'f', 'f', 'f', 'f', 'f']).length = 8 := rfl

theorem isHex_easyDifficulty :
    ∀ byte ∈ ascii ['2', '0', 'f', 'f', 'f', 'f', 'f', 'f'], IsHex byte := by decide +kernel

theorem length_zeroSeed : (List.replicate 64 (48 : UInt8)).length = 64 := rfl

theorem isHex_zeroSeed : ∀ byte ∈ List.replicate 64 (48 : UInt8), IsHex byte := by
  decide +kernel

/-- Difficulty `20ffffff` with a seed and a solution of zeros. -/
def easyFields : SolnFields where
  difficulty := ⟨ascii ['2', '0', 'f', 'f', 'f', 'f', 'f', 'f'], length_easyDifficulty,
    isHex_easyDifficulty⟩
  seed := ⟨List.replicate 64 48, length_zeroSeed, isHex_zeroSeed⟩
  solution := ⟨List.replicate 16 48, rfl, by decide +kernel⟩

theorem solnHandler_verdict_easy :
    3 ≤ alphaField easyFields.difficulty ∧
      solnHandler .littleEndian (fun _ => uint256Init) ⟨0, [], 0⟩ easyFields.command =
        okayReply :=
  ⟨by decide, (solnHandler_verdict (fun _ => uint256Init) ⟨0, [], 0⟩ easyFields
    (by decide)).1.mpr (by decide +kernel)⟩

end BitcoinServer.Solution
