import BitcoinServer.Library.CText
import Mathlib.Data.List.TakeWhile

/-!
Contract: what an input looks like from which `sscanf` stores every item.

`Reads` is the declarative side of `sscanf`: the input as the concatenation of blanks,
numerals and words, each as long as it can be. It covers formats without widths.

Owns the agreement of the two: an item is stored exactly where the input reads as the
format up to this item.
-/

namespace CText

/-! ## Numerals -/

/-- A number as `%x` accepts it: an optional sign, an optional `0x`, and digits. -/
structure Numeral where
  sign : List UInt8
  zeroX : List UInt8
  digits : List UInt8
  isSign : sign = [] ∨ sign = [43] ∨ sign = [45]
  isZeroX : zeroX = [] ∨ zeroX = [48, 120] ∨ zeroX = [48, 88]
  nonempty : digits ≠ []
  isHex : ∀ byte ∈ digits, IsHex byte

namespace Numeral

def text (numeral : Numeral) : List UInt8 := numeral.sign ++ (numeral.zeroX ++ numeral.digits)

def value (numeral : Numeral) : Nat :=
  toUnsigned (decide (numeral.sign = [45])) (hexNumber numeral.digits)

/-- The numeral ends before `rest`: neither a further digit follows, nor, on a single `0`, the
letter of a prefix. -/
def EndsAt (numeral : Numeral) (rest : List UInt8) : Prop :=
  (∀ byte, rest.head? = some byte → ¬ IsHex byte) ∧
    (numeral.zeroX = [] → numeral.digits = [48] →
      ∀ byte, rest.head? = some byte → byte ≠ 120 ∧ byte ≠ 88)

end Numeral

theorem takeHex_split {limit : Nat} {input digits rest : List UInt8}
    (read : takeHex limit input = (digits, rest)) (room : input.length ≤ limit) :
    input = digits ++ rest ∧ (∀ byte ∈ digits, IsHex byte) ∧
      ∀ byte, rest.head? = some byte → ¬ IsHex byte := by
  induction limit generalizing input digits rest with
  | zero =>
      obtain ⟨rfl, rfl⟩ := Prod.mk.inj read
      rw [List.length_eq_zero_iff.mp (Nat.le_zero.mp room)]
      exact ⟨rfl, nofun, nofun⟩
  | succ limit inductionHypothesis =>
      match input with
      | [] =>
          obtain ⟨rfl, rfl⟩ := Prod.mk.inj read
          exact ⟨rfl, nofun, nofun⟩
      | byte :: tail =>
          by_cases digit : IsHex byte
          · rw [takeHex, if_pos digit] at read
            obtain ⟨rfl, rfl⟩ := Prod.mk.inj read
            obtain ⟨split, allHex, ends⟩ := inductionHypothesis (Prod.mk.eta.symm)
              (Nat.le_of_succ_le_succ room)
            refine ⟨by rw [List.cons_append, ← split], ?_, ends⟩
            intro other member
            rcases List.mem_cons.mp member with rfl | later
            · exact digit
            · exact allHex other later
          · rw [takeHex, if_neg digit] at read
            obtain ⟨rfl, rfl⟩ := Prod.mk.inj read
            refine ⟨rfl, nofun, ?_⟩
            rintro other ⟨⟩
            exact digit

/-- The sign that `takeSign` takes off. -/
theorem takeSign_split (input : List UInt8) :
    ∃ sign unsigned, (sign = [] ∨ sign = [43] ∨ sign = [45]) ∧ input = sign ++ unsigned ∧
      takeSign input.length input = (decide (sign = [45]), unsigned.length, unsigned) := by
  match input with
  | [] => exact ⟨[], [], Or.inl rfl, rfl, rfl⟩
  | byte :: rest =>
      have positive : ¬ (byte :: rest).length = 0 := Nat.succ_ne_zero _
      by_cases minus : byte = 45
      · subst minus
        exact ⟨[45], rest, Or.inr (Or.inr rfl), rfl, by simp [takeSign]⟩
      · by_cases plus : byte = 43
        · subst plus
          exact ⟨[43], rest, Or.inr (Or.inl rfl), rfl, by simp [takeSign]⟩
        · exact ⟨[], byte :: rest, Or.inl rfl, rfl, by simp [takeSign, minus, plus]⟩

/-- The prefix that `takePrefix` takes off; without one the input does not start with a `0`
and its letter. -/
theorem takePrefix_split (input : List UInt8) :
    ∃ zeroX body, (zeroX = [] ∨ zeroX = [48, 120] ∨ zeroX = [48, 88]) ∧ input = zeroX ++ body ∧
      takePrefix input.length input = (body.length, body) ∧
      (zeroX = [] → ∀ letter rest, body = 48 :: letter :: rest → letter ≠ 120 ∧ letter ≠ 88) := by
  match input with
  | [] => exact ⟨[], [], Or.inl rfl, rfl, rfl, nofun⟩
  | [byte] => exact ⟨[], [byte], Or.inl rfl, rfl, rfl, nofun⟩
  | zero :: letter :: rest =>
      by_cases isPrefix : zero = 48 ∧ (letter = 120 ∨ letter = 88)
      · obtain ⟨rfl, isLetter⟩ := isPrefix
        refine ⟨[48, letter], rest, ?_, rfl, by simp [takePrefix, isLetter], nofun⟩
        rcases isLetter with rfl | rfl
        · exact Or.inr (Or.inl rfl)
        · exact Or.inr (Or.inr rfl)
      · refine ⟨[], zero :: letter :: rest, Or.inl rfl, rfl, ?_, ?_⟩
        · exact if_neg fun taken => isPrefix ⟨taken.1, taken.2.1⟩
        · rintro _ other tail ⟨⟩
          exact not_or.mp fun isLetter => isPrefix ⟨rfl, isLetter⟩

theorem takeSign_append {sign unsigned : List UInt8}
    (isSign : sign = [] ∨ sign = [43] ∨ sign = [45])
    (starts : ∀ byte, unsigned.head? = some byte → byte ≠ 43 ∧ byte ≠ 45) :
    takeSign (sign ++ unsigned).length (sign ++ unsigned) =
      (decide (sign = [45]), unsigned.length, unsigned) := by
  rcases isSign with rfl | rfl | rfl
  · match unsigned with
    | [] => rfl
    | byte :: rest =>
        obtain ⟨notPlus, notMinus⟩ := starts byte rfl
        simp [takeSign, notPlus, notMinus]
  · simp [takeSign]
  · simp [takeSign]

theorem takePrefix_append {zeroX body : List UInt8}
    (isZeroX : zeroX = [] ∨ zeroX = [48, 120] ∨ zeroX = [48, 88])
    (starts : zeroX = [] → ∀ letter rest, body = 48 :: letter :: rest →
      letter ≠ 120 ∧ letter ≠ 88) :
    takePrefix (zeroX ++ body).length (zeroX ++ body) = (body.length, body) := by
  rcases isZeroX with rfl | rfl | rfl
  · match body with
    | [] => rfl
    | [byte] => rfl
    | zero :: letter :: rest =>
        apply if_neg
        rintro ⟨rfl, isLetter, -⟩
        obtain ⟨notSmall, notLarge⟩ := starts rfl letter rest rfl
        exact isLetter.elim notSmall notLarge
  · simp [takePrefix]
  · simp [takePrefix]

/-- What follows the sign of a numeral starts with a digit. -/
theorem Numeral.head_unsigned (numeral : Numeral) (rest : List UInt8) :
    ∃ first tail, numeral.zeroX ++ numeral.digits ++ rest = first :: tail ∧ IsHex first := by
  rcases numeral.isZeroX with none | small | large
  · obtain ⟨first, digits, split⟩ := List.exists_cons_of_ne_nil numeral.nonempty
    refine ⟨first, digits ++ rest, ?_, numeral.isHex first (split ▸ List.mem_cons_self)⟩
    rw [none, split]
    rfl
  · exact ⟨48, _, by rw [small]; rfl, by decide⟩
  · exact ⟨48, _, by rw [large]; rfl, by decide⟩

/-- Digits behind no prefix do not start like one. -/
theorem Numeral.digits_start {numeral : Numeral} {rest : List UInt8} (ends : numeral.EndsAt rest)
    (none : numeral.zeroX = []) (letter : UInt8) (tail : List UInt8)
    (split : numeral.digits ++ rest = 48 :: letter :: tail) : letter ≠ 120 ∧ letter ≠ 88 := by
  have digitsHex := numeral.isHex
  match digits : numeral.digits with
  | [] => exact absurd digits numeral.nonempty
  | [only] =>
      rw [digits] at split
      obtain ⟨rfl, restSplit⟩ := List.cons.inj split
      have restStarts : rest = letter :: tail := restSplit
      exact ends.2 none digits letter (by rw [restStarts]; rfl)
  | first :: second :: more =>
      rw [digits] at split digitsHex
      obtain ⟨-, split⟩ := List.cons.inj split
      obtain ⟨rfl, -⟩ := List.cons.inj split
      have second := (digitsHex second (by simp)).separates
      exact ⟨second.2.2.2.1, second.2.2.2.2.1⟩

theorem scanHex_numeral {numeral : Numeral} {rest : List UInt8} (ends : numeral.EndsAt rest) :
    scanHex (numeral.text ++ rest).length (numeral.text ++ rest) = some (numeral.value, rest) := by
  have signStart : ∀ byte, (numeral.zeroX ++ numeral.digits ++ rest).head? = some byte →
      byte ≠ 43 ∧ byte ≠ 45 := by
    obtain ⟨first, tail, split, digit⟩ := numeral.head_unsigned rest
    rw [split]
    rintro byte ⟨⟩
    exact ⟨digit.separates.2.2.1, digit.separates.2.1⟩
  have signRead := takeSign_append numeral.isSign signStart
  have prefixRead := takePrefix_append numeral.isZeroX fun none letter tail =>
    numeral.digits_start ends none letter tail
  have digitsRead := takeHex_append numeral.digits rest (numeral.digits ++ rest).length
    numeral.isHex (by simp) (Or.inr ends.1)
  rw [List.append_assoc] at signRead
  rw [Numeral.text, List.append_assoc, List.append_assoc]
  unfold scanHex
  rw [signRead]
  simp only [prefixRead, digitsRead]
  rw [if_neg numeral.nonempty]
  rfl

/-- `scanHex` without a width reads one numeral, as long as it can be. -/
theorem scanHex_iff (input rest : List UInt8) (value : Nat) :
    scanHex input.length input = some (value, rest) ↔
      ∃ numeral : Numeral, input = numeral.text ++ rest ∧ numeral.EndsAt rest ∧
        value = numeral.value := by
  constructor
  · intro read
    obtain ⟨sign, unsigned, isSign, rfl, signRead⟩ := takeSign_split input
    obtain ⟨zeroX, body, isZeroX, rfl, prefixRead, noPrefix⟩ := takePrefix_split unsigned
    obtain ⟨digits, left, digitsRead⟩ : ∃ digits left,
        takeHex body.length body = (digits, left) := ⟨_, _, rfl⟩
    obtain ⟨rfl, allHex, ends⟩ := takeHex_split digitsRead (Nat.le_refl _)
    unfold scanHex at read
    rw [signRead] at read
    simp only [prefixRead, digitsRead] at read
    by_cases empty : digits = []
    · rw [if_pos empty] at read
      exact nomatch read
    · rw [if_neg empty] at read
      obtain ⟨rfl, rfl⟩ := Prod.mk.inj (Option.some.inj read)
      refine ⟨⟨sign, zeroX, digits, isSign, isZeroX, empty, allHex⟩, ?_, ⟨ends, ?_⟩, rfl⟩
      · simp only [Numeral.text, List.append_assoc]
      · intro none single byte first
        cases tail : left with
        | nil =>
            rw [tail] at first
            exact nomatch first
        | cons letter more =>
            rw [tail] at first
            obtain rfl : letter = byte := Option.some.inj first
            apply noPrefix none letter more
            rw [show digits = [48] from single, tail]
            rfl
  · rintro ⟨numeral, rfl, ends, rfl⟩
    exact scanHex_numeral ends

/-! ## Inputs that a format reads -/

/-- A run of white space. -/
def Blank (bytes : List UInt8) : Prop := ∀ byte ∈ bytes, isSpace byte = true

/-- The input starts with what each directive of the format asks for, one behind the other,
and these are the items. -/
inductive Reads : List Directive → List UInt8 → List Item → Prop where
  | nil (rest : List UInt8) : Reads [] rest []
  | space {format : List Directive} {blanks rest : List UInt8} {items : List Item}
      (allBlank : Blank blanks)
      (ends : ∀ byte, rest.head? = some byte → isSpace byte = false)
      (behind : Reads format rest items) : Reads (.space :: format) (blanks ++ rest) items
  | hex {format : List Directive} {bits : Nat} {blanks rest : List UInt8} {items : List Item}
      {numeral : Numeral} (allBlank : Blank blanks) (ends : numeral.EndsAt rest)
      (behind : Reads format rest items) :
      Reads (.hex none bits :: format) (blanks ++ (numeral.text ++ rest))
        (.number (numeral.value % 2 ^ bits) :: items)
  | text {format : List Directive} {blanks word rest : List UInt8} {items : List Item}
      (allBlank : Blank blanks) (nonempty : word ≠ [])
      (solid : ∀ byte ∈ word, isSpace byte = false)
      (ends : ∀ byte, rest.head? = some byte → isSpace byte = true)
      (behind : Reads format rest items) :
      Reads (.text :: format) (blanks ++ (word ++ rest)) (.text word :: items)

/-- The number of items that a format asks for. -/
def stores : List Directive → Nat
  | [] => 0
  | .space :: format => stores format
  | _ :: format => stores format + 1

def Directive.unbounded : Directive → Bool
  | .hex (some _) _ => false
  | _ => true

theorem dropWhile_blanks {blanks rest : List UInt8} (allBlank : Blank blanks)
    (starts : ∀ byte, rest.head? = some byte → isSpace byte = false) :
    (blanks ++ rest).dropWhile isSpace = rest := by
  rw [List.dropWhile_append_of_pos allBlank, dropWhile_isSpace_of_head starts]

/-- The blanks in front of a field. -/
theorem blanks_split (input : List UInt8) :
    ∃ blanks field, Blank blanks ∧ input = blanks ++ field ∧ input.dropWhile isSpace = field ∧
      ∀ byte, field.head? = some byte → isSpace byte = false := by
  refine ⟨input.takeWhile isSpace, input.dropWhile isSpace, ?_,
    List.takeWhile_append_dropWhile.symm, rfl, ?_⟩
  · intro byte member
    exact List.mem_takeWhile_imp member
  · intro byte first
    have stopped := List.head?_dropWhile_not isSpace input
    rw [first] at stopped
    simpa using stopped

/-- The word at the start of a field. -/
theorem word_split (field : List UInt8) : ∃ word rest, field = word ++ rest ∧
    field.takeWhile (fun byte => !isSpace byte) = word ∧
    field.dropWhile (fun byte => !isSpace byte) = rest ∧
    (∀ byte ∈ word, isSpace byte = false) ∧
    ∀ byte, rest.head? = some byte → isSpace byte = true := by
  refine ⟨_, _, List.takeWhile_append_dropWhile.symm, rfl, rfl, ?_, ?_⟩
  · intro byte member
    simpa using List.mem_takeWhile_imp member
  · intro byte first
    have stopped := List.head?_dropWhile_not (fun byte => !isSpace byte) field
    rw [first] at stopped
    simpa using stopped

theorem Numeral.head_solid (numeral : Numeral) (rest : List UInt8) :
    ∀ byte, (numeral.text ++ rest).head? = some byte → isSpace byte = false := by
  obtain ⟨first, tail, split, digit⟩ := numeral.head_unsigned rest
  rw [Numeral.text, List.append_assoc, split]
  intro byte head
  rcases numeral.isSign with none | plus | minus
  · rw [none] at head
    cases head
    exact digit.separates.1
  · rw [plus] at head
    cases head
    rfl
  · rw [minus] at head
    cases head
    rfl

/-- From an input that reads as the format, `sscanf` stores every item. -/
theorem sscanf_of_reads {format : List Directive} {input : List UInt8} {items : List Item}
    (reads : Reads format input items) : sscanf format input = items := by
  induction reads with
  | nil rest => rfl
  | space allBlank ends _ inductionHypothesis =>
      rw [sscanf, dropWhile_blanks allBlank ends]
      exact inductionHypothesis
  | @hex format bits blanks rest items numeral allBlank ends _ inductionHypothesis =>
      rw [sscanf, dropWhile_blanks allBlank (numeral.head_solid rest)]
      simp only [Option.getD_none, scanHex_numeral ends, inductionHypothesis]
  | @text format blanks word rest items allBlank nonempty solid ends _ inductionHypothesis =>
      have starts : ∀ byte, (word ++ rest).head? = some byte → isSpace byte = false := by
        obtain ⟨first, word, rfl⟩ := List.exists_cons_of_ne_nil nonempty
        rintro byte ⟨⟩
        exact solid first List.mem_cons_self
      obtain ⟨read, left⟩ := takeWhile_word word rest solid ends
      rw [sscanf, dropWhile_blanks allBlank starts]
      simp only [read, left, if_neg nonempty, inductionHypothesis]

theorem stores_of_reads {format : List Directive} {input : List UInt8} {items : List Item}
    (reads : Reads format input items) : items.length = stores format := by
  induction reads with
  | nil rest => rfl
  | space _ _ _ inductionHypothesis => exact inductionHypothesis
  | hex _ _ _ inductionHypothesis => exact congrArg (· + 1) inductionHypothesis
  | text _ _ _ _ _ inductionHypothesis => exact congrArg (· + 1) inductionHypothesis

/-- Where every item is stored, the input reads as the format. -/
theorem reads_of_sscanf {format : List Directive} {input : List UInt8}
    (unbounded : ∀ directive ∈ format, directive.unbounded = true)
    (complete : (sscanf format input).length = stores format) :
    Reads format input (sscanf format input) := by
  induction format generalizing input with
  | nil => exact .nil input
  | cons directive format inductionHypothesis =>
      have later := fun other member => unbounded other (List.mem_cons_of_mem directive member)
      obtain ⟨blanks, field, allBlank, rfl, dropped, starts⟩ := blanks_split input
      cases directive with
      | space =>
          rw [sscanf, dropped] at complete ⊢
          exact .space allBlank starts (inductionHypothesis later complete)
      | hex width bits =>
          cases width with
          | some width =>
              exact absurd (unbounded _ List.mem_cons_self) Bool.false_ne_true
          | none =>
              rw [sscanf, dropped] at complete ⊢
              simp only [Option.getD_none] at complete ⊢
              cases read : scanHex field.length field with
              | none =>
                  rw [read] at complete
                  exact absurd complete.symm (Nat.succ_ne_zero _)
              | some scanned =>
                  obtain ⟨value, rest⟩ := scanned
                  obtain ⟨numeral, rfl, ends, rfl⟩ := (scanHex_iff field rest value).mp read
                  rw [read] at complete
                  exact .hex allBlank ends (inductionHypothesis later (Nat.succ.inj complete))
      | text =>
          rw [sscanf, dropped] at complete ⊢
          obtain ⟨word, rest, rfl, wordRead, restLeft, solid, ends⟩ := word_split field
          simp only [wordRead, restLeft] at complete ⊢
          by_cases empty : word = []
          · rw [if_pos empty] at complete
            exact absurd complete.symm (Nat.succ_ne_zero _)
          · rw [if_neg empty] at complete ⊢
            have behind := inductionHypothesis later (Nat.succ.inj complete)
            exact .text allBlank empty solid ends behind

/-- `sscanf` stores all its items exactly from the inputs that read as its format. -/
theorem reads_iff {format : List Directive} {input : List UInt8} {items : List Item}
    (unbounded : ∀ directive ∈ format, directive.unbounded = true) :
    Reads format input items ↔ sscanf format input = items ∧ items.length = stores format := by
  constructor
  · intro reads
    exact ⟨sscanf_of_reads reads, stores_of_reads reads⟩
  · rintro ⟨rfl, complete⟩
    exact reads_of_sscanf unbounded complete

/-! ## The items of a longer format -/

/-- What a format stores, it stores as the start of a longer one, which goes on where it has
stored all. -/
theorem sscanf_append (first second : List Directive) (input : List UInt8) :
    ∃ more, sscanf (first ++ second) input = sscanf first input ++ more ∧
      ((sscanf first input).length = stores first ∨ more = []) := by
  induction first generalizing input with
  | nil => exact ⟨_, rfl, Or.inl rfl⟩
  | cons directive first inductionHypothesis =>
      match directive with
      | .space => exact inductionHypothesis _
      | .hex width bits =>
          rw [List.cons_append, sscanf, sscanf]
          cases read : scanHex (width.getD (input.dropWhile isSpace).length)
              (input.dropWhile isSpace) with
          | none => exact ⟨[], rfl, Or.inr rfl⟩
          | some scanned =>
              obtain ⟨more, goesOn, complete⟩ := inductionHypothesis scanned.2
              refine ⟨more, ?_, complete.imp_left (congrArg (· + 1))⟩
              simp only [goesOn, List.cons_append]
      | .text =>
          rw [List.cons_append, sscanf, sscanf]
          split
          · exact ⟨[], rfl, Or.inr rfl⟩
          · obtain ⟨more, goesOn, complete⟩ := inductionHypothesis
              ((input.dropWhile isSpace).dropWhile fun byte => !isSpace byte)
            exact ⟨more, by rw [goesOn, List.cons_append],
              complete.imp_left (congrArg (· + 1))⟩

theorem length_sscanf_le (format : List Directive) (input : List UInt8) :
    (sscanf format input).length ≤ stores format := by
  fun_induction sscanf format input with
  | case1 => exact Nat.le_refl 0
  | case2 _ _ inductionHypothesis => exact inductionHypothesis
  | case3 => exact Nat.zero_le _
  | case4 _ _ _ _ _ _ _ _ inductionHypothesis => exact Nat.succ_le_succ inductionHypothesis
  | case5 => exact Nat.zero_le _
  | case6 _ _ _ _ _ inductionHypothesis => exact Nat.succ_le_succ inductionHypothesis

/-- The last item of a format is stored by a longer one exactly where the input reads as the
format. -/
theorem sscanf_last_iff (first second : List Directive) (input : List UInt8) {i : Nat}
    (last : stores first = i + 1)
    (unbounded : ∀ directive ∈ first, directive.unbounded = true) (item : Item) :
    (sscanf (first ++ second) input)[i]? = some item ↔
      ∃ items, Reads first input items ∧ items[i]? = some item := by
  obtain ⟨more, goesOn, complete⟩ := sscanf_append first second input
  have bound := length_sscanf_le first input
  constructor
  · intro stored
    have reached : (sscanf first input).length = stores first := by
      rcases complete with complete | rfl
      · exact complete
      · rw [goesOn, List.append_nil] at stored
        have inside := (List.getElem?_eq_some_iff.mp stored).1
        omega
    rw [goesOn, List.getElem?_append_left (by omega)] at stored
    exact ⟨_, (reads_iff unbounded).mpr ⟨rfl, reached⟩, stored⟩
  · rintro ⟨items, reads, stored⟩
    obtain ⟨rfl, -⟩ := (reads_iff unbounded).mp reads
    have inside := (List.getElem?_eq_some_iff.mp stored).1
    rw [goesOn, List.getElem?_append_left inside, stored]

end CText
