import Mathlib.Data.List.Induction
import Mathlib.Tactic.Ring

/-!
Contract: C strings, `sscanf` and `printf` on byte lists.

A C string is the list of bytes before its terminator. The scanner covers the
conversions `%x` (with a maximum width and any target size), `%s` and white
space; `sscanf` stops at the first directive that fails and the items after it
are not stored. A numeric item is read as by `strtoul` with base 16: an
optional sign, an optional `0x`, digits; a value past the range of
`unsigned long` reads as `ULONG_MAX`; the result is cut to the target's size.

Owns the field laws: `%x` reads back a run of hexadecimal digits, `%s` a run
of non-blank characters, and `%0wx` prints a number that reads back as itself.
-/

namespace CText

/-- The bytes of an ASCII literal. -/
def ascii (text : List Char) : List UInt8 :=
  text.map Char.toUInt8

/-- The string that a buffer holds: its bytes before the first NUL. -/
def cString (buffer : List UInt8) : List UInt8 :=
  buffer.takeWhile (· ≠ 0)

def isSpace (byte : UInt8) : Bool :=
  byte = 32 ∨ (9 ≤ byte ∧ byte ≤ 13)

/-- Value of a hexadecimal digit of either case. -/
def hexValue (byte : UInt8) : Option Nat :=
  if 48 ≤ byte ∧ byte ≤ 57 then some (byte.toNat - 48)
  else if 65 ≤ byte ∧ byte ≤ 70 then some (byte.toNat - 55)
  else if 97 ≤ byte ∧ byte ≤ 102 then some (byte.toNat - 87)
  else none

def IsHex (byte : UInt8) : Prop := (hexValue byte).isSome = true

instance (byte : UInt8) : Decidable (IsHex byte) :=
  inferInstanceAs (Decidable (_ = true))

/-- Number spelled by hexadecimal digits, most significant first. -/
def hexNumber (digits : List UInt8) : Nat :=
  digits.foldl (fun value digit => value * 16 + (hexValue digit).getD 0) 0

/-! ## Scanning -/

/-- White space in a format, `%x` with an optional maximum width stored into
`bits` bits, and `%s`. -/
inductive Directive where
  | space
  | hex (width : Option Nat) (bits : Nat)
  | text
deriving DecidableEq, Repr

inductive Item where
  | number (value : Nat)
  | text (characters : List UInt8)
deriving DecidableEq, Repr

/-- The longest run of hexadecimal digits, at most `limit` of them. -/
def takeHex : Nat → List UInt8 → List UInt8 × List UInt8
  | 0, input => ([], input)
  | _ + 1, [] => ([], [])
  | limit + 1, byte :: rest =>
      if IsHex byte then
        (byte :: (takeHex limit rest).1, (takeHex limit rest).2)
      else ([], byte :: rest)

/-- An optional sign: whether it is a minus, the width left, the input left. -/
def takeSign (limit : Nat) : List UInt8 → Bool × Nat × List UInt8
  | [] => (false, limit, [])
  | byte :: rest =>
      if limit = 0 then (false, limit, byte :: rest)
      else if byte = 45 then (true, limit - 1, rest)
      else if byte = 43 then (false, limit - 1, rest)
      else (false, limit, byte :: rest)

/-- An optional `0x` or `0X`. -/
def takePrefix (limit : Nat) : List UInt8 → Nat × List UInt8
  | zero :: letter :: rest =>
      if zero = 48 ∧ (letter = 120 ∨ letter = 88) ∧ 2 ≤ limit then (limit - 2, rest)
      else (limit, zero :: letter :: rest)
  | input => (limit, input)

/-- `strtoul` on the matched characters. -/
def toUnsigned (negative : Bool) (value : Nat) : Nat :=
  if 2 ^ 64 ≤ value then 2 ^ 64 - 1
  else if negative then (2 ^ 64 - value) % 2 ^ 64
  else value

/-- One numeric item: its value and the input left, or a matching failure. -/
def scanHex (limit : Nat) (input : List UInt8) : Option (Nat × List UInt8) :=
  let (negative, afterSign, unsigned) := takeSign limit input
  let (afterPrefix, body) := takePrefix afterSign unsigned
  let (digits, rest) := takeHex afterPrefix body
  if digits = [] then none else some (toUnsigned negative (hexNumber digits), rest)

/-- The items that `sscanf` stores, in order. -/
def sscanf : List Directive → List UInt8 → List Item
  | [], _ => []
  | .space :: format, input => sscanf format (input.dropWhile isSpace)
  | .hex width bits :: format, input =>
      let field := input.dropWhile isSpace
      match scanHex (width.getD field.length) field with
      | none => []
      | some (value, rest) => .number (value % 2 ^ bits) :: sscanf format rest
  | .text :: format, input =>
      let field := input.dropWhile isSpace
      let word := field.takeWhile (fun byte => !isSpace byte)
      if word = [] then []
      else .text word :: sscanf format (field.dropWhile (fun byte => !isSpace byte))

/-- A number variable after the call, when item `i` is stored into it. -/
def storedNumber (items : List Item) (i old : Nat) : Nat :=
  match items[i]? with
  | some (.number value) => value
  | _ => old

/-- The memory from a character buffer on after the call, when item `i` is stored
into it with its terminator. -/
def storedText (items : List Item) (i : Nat) (old : List UInt8) : List UInt8 :=
  match items[i]? with
  | some (.text word) => word ++ 0 :: old.drop (word.length + 1)
  | _ => old

/-! ## Printing -/

def hexDigit (digit : Nat) : UInt8 :=
  if digit < 10 then UInt8.ofNat (48 + digit) else UInt8.ofNat (87 + digit)

/-- `%0<width>x` of a value with at most `width` digits. -/
def printHex : Nat → Nat → List UInt8
  | 0, _ => []
  | width + 1, value => printHex width (value / 16) ++ [hexDigit (value % 16)]

/-! ## Strings -/

/-- A terminator behind characters that are none ends their string. -/
theorem cString_append_nul {word : List UInt8} (noNul : ∀ byte ∈ word, byte ≠ 0)
    (rest : List UInt8) : cString (word ++ 0 :: rest) = word := by
  unfold cString
  rw [List.takeWhile_append_of_pos (by simpa using noNul), List.takeWhile_cons_of_neg (by simp),
    List.append_nil]

/-! ## Digits -/

theorem hexValue_lt {byte : UInt8} {value : Nat} (read : hexValue byte = some value) :
    value < 16 := by
  unfold hexValue at read
  split at read
  next range =>
    have upper := UInt8.le_iff_toNat_le.mp range.2
    simp only [Option.some.injEq, UInt8.reduceToNat] at read upper
    omega
  next =>
    split at read
    next range =>
      have upper := UInt8.le_iff_toNat_le.mp range.2
      simp only [Option.some.injEq, UInt8.reduceToNat] at read upper
      omega
    next =>
      split at read
      next range =>
        have upper := UInt8.le_iff_toNat_le.mp range.2
        simp only [Option.some.injEq, UInt8.reduceToNat] at read upper
        omega
      next => contradiction

/-- What holds of all 256 byte values holds of every byte. -/
theorem forall_byte {property : UInt8 → Prop}
    (holds : ∀ value : Fin 256, property (UInt8.ofNat value)) (byte : UInt8) :
    property byte := by
  have atValue := holds ⟨byte.toNat, byte.toNat_lt⟩
  rwa [UInt8.ofNat_toNat] at atValue

/-- A digit is neither blank, nor a sign, nor the letter of `0x`, nor NUL. -/
theorem IsHex.separates {byte : UInt8} (digit : IsHex byte) :
    isSpace byte = false ∧ byte ≠ 45 ∧ byte ≠ 43 ∧ byte ≠ 120 ∧ byte ≠ 88 ∧ byte ≠ 0 := by
  have everyByte : ∀ other : UInt8, IsHex other → isSpace other = false ∧ other ≠ 45 ∧
      other ≠ 43 ∧ other ≠ 120 ∧ other ≠ 88 ∧ other ≠ 0 :=
    forall_byte (by decide +kernel)
  exact everyByte byte digit

theorem isSpace_ne_letter {byte : UInt8} (blank : isSpace byte = true) :
    byte ≠ 120 ∧ byte ≠ 88 := by
  have everyByte : ∀ other : UInt8, isSpace other = true → other ≠ 120 ∧ other ≠ 88 :=
    forall_byte (by decide +kernel)
  exact everyByte byte blank

theorem isHex_hexDigit {digit : Nat} (small : digit < 16) :
    hexValue (hexDigit digit) = some digit := by
  revert digit
  decide

theorem hexNumber_append (first second : List UInt8) :
    hexNumber (first ++ second) = hexNumber first * 16 ^ second.length + hexNumber second := by
  have general : ∀ (initial : Nat) (digits : List UInt8),
      digits.foldl (fun value digit => value * 16 + (hexValue digit).getD 0) initial =
        initial * 16 ^ digits.length + hexNumber digits := by
    intro initial digits
    induction digits generalizing initial with
    | nil => simp [hexNumber]
    | cons head tail inductionHypothesis =>
        unfold hexNumber
        rw [List.foldl_cons, List.foldl_cons, inductionHypothesis, inductionHypothesis,
          List.length_cons, Nat.pow_succ]
        ring
  rw [hexNumber, List.foldl_append, general]
  rfl

theorem hexNumber_lt (digits : List UInt8) : hexNumber digits < 16 ^ digits.length := by
  induction digits using List.reverseRecOn with
  | nil => simp [hexNumber]
  | append_singleton front last inductionHypothesis =>
      have digit : (hexValue last).getD 0 < 16 := by
        cases read : hexValue last with
        | none => simp
        | some value => exact hexValue_lt read
      have value : hexNumber [last] = (hexValue last).getD 0 := by simp [hexNumber]
      rw [hexNumber_append, value, List.length_append, List.length_singleton, Nat.pow_succ]
      omega

@[simp] theorem printHex_length (width value : Nat) :
    (printHex width value).length = width := by
  induction width generalizing value with
  | zero => rfl
  | succ width inductionHypothesis => simp [printHex, inductionHypothesis]

theorem printHex_isHex (width value : Nat) : ∀ byte ∈ printHex width value, IsHex byte := by
  induction width generalizing value with
  | zero => simp [printHex]
  | succ width inductionHypothesis =>
      intro byte member
      rw [printHex, List.mem_append, List.mem_singleton] at member
      cases member with
      | inl front => exact inductionHypothesis _ byte front
      | inr last =>
          subst last
          unfold IsHex
          rw [isHex_hexDigit (Nat.mod_lt _ (by decide))]
          rfl

/-- A printed number reads back. -/
theorem hexNumber_printHex {width value : Nat} (fits : value < 16 ^ width) :
    hexNumber (printHex width value) = value := by
  induction width generalizing value with
  | zero =>
      rw [Nat.pow_zero] at fits
      simp only [printHex, hexNumber, List.foldl_nil]
      omega
  | succ width inductionHypothesis =>
      have front : value / 16 < 16 ^ width := by
        rw [Nat.pow_succ] at fits
        omega
      have last : hexNumber [hexDigit (value % 16)] = value % 16 := by
        simp [hexNumber, isHex_hexDigit (Nat.mod_lt value (by decide : 0 < 16))]
      rw [printHex, hexNumber_append, inductionHypothesis front, last, List.length_singleton]
      omega

/-! ## Fields -/

theorem takeHex_append (digits rest : List UInt8) (limit : Nat)
    (allHex : ∀ byte ∈ digits, IsHex byte) (room : digits.length ≤ limit)
    (ends : limit = digits.length ∨ ∀ byte, rest.head? = some byte → ¬ IsHex byte) :
    takeHex limit (digits ++ rest) = (digits, rest) := by
  induction digits generalizing limit with
  | nil =>
      cases limit with
      | zero => rfl
      | succ limit =>
          cases rest with
          | nil => rfl
          | cons byte tail =>
              have stops : ¬ IsHex byte := by
                cases ends with
                | inl exhausted => simp at exhausted
                | inr stops => exact stops byte rfl
              simp [takeHex, stops]
  | cons digit digits inductionHypothesis =>
      cases limit with
      | zero => simp at room
      | succ limit =>
          have tailRead := inductionHypothesis limit
            (fun byte member => allHex byte (List.mem_cons_of_mem _ member))
            (by simpa using room) (by simpa using ends)
          have headHex : IsHex digit := allHex digit (by simp)
          rw [List.cons_append, takeHex, if_pos headHex, tailRead]

/-- `%x` reads a nonempty run of digits that ends at its width or at a
character that is no digit and cannot follow a leading zero. -/
theorem scanHex_digits (digits rest : List UInt8) (limit : Nat)
    (allHex : ∀ byte ∈ digits, IsHex byte) (nonempty : digits ≠ [])
    (room : digits.length ≤ limit) (fits : digits.length ≤ 16)
    (ends : (limit = digits.length ∧ 2 ≤ limit) ∨
      ∀ byte, rest.head? = some byte → isSpace byte = true) :
    scanHex limit (digits ++ rest) = some (hexNumber digits, rest) := by
  obtain ⟨digit, digits, rfl⟩ := List.exists_cons_of_ne_nil nonempty
  have headHex : IsHex digit := allHex digit (by simp)
  have noSign : takeSign limit (digit :: digits ++ rest) =
      (false, limit, digit :: digits ++ rest) := by
    have positive : limit ≠ 0 := by
      rw [List.length_cons] at room
      omega
    simp [takeSign, positive, headHex.separates.2.1, headHex.separates.2.2.1]
  -- The character after a first `0` is a digit or the blank that ends the field.
  have noPrefix : takePrefix limit (digit :: digits ++ rest) =
      (limit, digit :: digits ++ rest) := by
    cases digits with
    | cons second digits =>
        have secondHex : IsHex second := allHex second (by simp)
        simp [takePrefix, secondHex.separates.2.2.2.1, secondHex.separates.2.2.2.2.1]
    | nil =>
        cases ends with
        | inl exact_width =>
            simp only [List.length_singleton] at exact_width
            omega
        | inr blank =>
            cases rest with
            | nil => rfl
            | cons byte tail =>
                have notLetter := isSpace_ne_letter (blank byte rfl)
                simp [takePrefix, notLetter]
  have read : takeHex limit (digit :: digits ++ rest) = (digit :: digits, rest) := by
    apply takeHex_append _ _ _ allHex room
    cases ends with
    | inl exact_width => exact Or.inl exact_width.1
    | inr blank =>
        right
        intro byte first isDigit
        have spaced := blank byte first
        rw [isDigit.separates.1] at spaced
        exact Bool.noConfusion spaced
  have small : hexNumber (digit :: digits) < 2 ^ 64 := by
    have bound := hexNumber_lt (digit :: digits)
    have power : 16 ^ (digit :: digits).length ≤ 16 ^ 16 :=
      Nat.pow_le_pow_right (by decide) fits
    have top : (16 : Nat) ^ 16 = 2 ^ 64 := by decide
    omega
  unfold scanHex
  rw [noSign]
  simp only [noPrefix, read, toUnsigned, Nat.not_le.mpr small, if_false]
  rfl

theorem dropWhile_isSpace_of_head {input : List UInt8}
    (starts : ∀ byte, input.head? = some byte → isSpace byte = false) :
    input.dropWhile isSpace = input := by
  cases input with
  | nil => rfl
  | cons byte rest => simp [starts byte rfl]

/-- `%s` reads a run of non-blank characters up to the next blank. -/
theorem takeWhile_word (word rest : List UInt8)
    (solid : ∀ byte ∈ word, isSpace byte = false)
    (ends : ∀ byte, rest.head? = some byte → isSpace byte = true) :
    (word ++ rest).takeWhile (fun byte => !isSpace byte) = word ∧
      (word ++ rest).dropWhile (fun byte => !isSpace byte) = rest := by
  induction word with
  | nil =>
      cases rest with
      | nil => exact ⟨rfl, rfl⟩
      | cons byte tail => simp [ends byte rfl]
  | cons head tail inductionHypothesis =>
      have tailRead := inductionHypothesis
        (fun byte member => solid byte (List.mem_cons_of_mem _ member))
      have headSolid := solid head (by simp)
      simp [headSolid, tailRead]

theorem sscanf_space (format : List Directive) (rest : List UInt8)
    (starts : ∀ byte, rest.head? = some byte → isSpace byte = false) :
    sscanf (.space :: format) (32 :: rest) = sscanf format rest := by
  rw [sscanf, List.dropWhile_cons_of_pos (by rfl), dropWhile_isSpace_of_head starts]

/-- `%x` without a width reads a field of digits up to the blank behind it. -/
theorem sscanf_hex (bits : Nat) (format : List Directive) (digits rest : List UInt8)
    (allHex : ∀ byte ∈ digits, IsHex byte) (nonempty : digits ≠ []) (fits : digits.length ≤ 16)
    (ends : ∀ byte, rest.head? = some byte → isSpace byte = true) :
    sscanf (.hex none bits :: format) (digits ++ rest) =
      .number (hexNumber digits % 2 ^ bits) :: sscanf format rest := by
  have starts : ∀ byte, (digits ++ rest).head? = some byte → isSpace byte = false := by
    obtain ⟨digit, digits, rfl⟩ := List.exists_cons_of_ne_nil nonempty
    rintro byte ⟨⟩
    exact (allHex digit List.mem_cons_self).separates.1
  have read := scanHex_digits digits rest (digits ++ rest).length allHex nonempty (by simp) fits
    (.inr ends)
  rw [sscanf, dropWhile_isSpace_of_head starts]
  simp only [Option.getD_none, read]

theorem sscanf_text (format : List Directive) (word rest : List UInt8) (nonempty : word ≠ [])
    (solid : ∀ byte ∈ word, isSpace byte = false)
    (ends : ∀ byte, rest.head? = some byte → isSpace byte = true) :
    sscanf (.text :: format) (word ++ rest) = .text word :: sscanf format rest := by
  have starts : ∀ byte, (word ++ rest).head? = some byte → isSpace byte = false := by
    obtain ⟨first, word, rfl⟩ := List.exists_cons_of_ne_nil nonempty
    rintro byte ⟨⟩
    exact solid first List.mem_cons_self
  obtain ⟨read, left⟩ := takeWhile_word word rest solid ends
  rw [sscanf, dropWhile_isSpace_of_head starts]
  simp only [read, left, if_neg nonempty]

/-! ## Bytes spelled by digits -/

/-- The bytes that digits spell, two digits a byte. -/
def spelledBytes : List UInt8 → List UInt8
  | high :: low :: rest => UInt8.ofNat (hexNumber [high, low]) :: spelledBytes rest
  | _ => []

theorem spelledBytes_length (count : Nat) (digits : List UInt8)
    (even : digits.length = 2 * count) : (spelledBytes digits).length = count := by
  induction count generalizing digits with
  | zero =>
      rw [List.length_eq_zero_iff.mp even]
      rfl
  | succ count inductionHypothesis =>
      match digits, even with
      | high :: low :: rest, even =>
          rw [spelledBytes, List.length_cons,
            inductionHypothesis rest (by simp only [List.length_cons] at even; omega)]

theorem head_blank (rest : List UInt8) :
    ∀ byte, (32 :: rest).head? = some byte → isSpace byte = true := by
  rintro byte ⟨⟩
  rfl

/-! ## Fields of digits -/

/-- A field of `n` hexadecimal digits of either case. -/
structure HexField (n : Nat) where
  digits : List UInt8
  length_eq : digits.length = n
  isHex : ∀ byte ∈ digits, IsHex byte

namespace HexField

variable {n : Nat} (field : HexField n)

/-- The number that the digits spell. -/
def number : Nat := hexNumber field.digits

theorem number_lt : field.number < 16 ^ n := by
  have bound := hexNumber_lt field.digits
  rwa [field.length_eq] at bound

theorem nonempty (positive : 0 < n) : field.digits ≠ [] := by
  intro empty
  have length := field.length_eq
  rw [empty, List.length_nil] at length
  omega

theorem solid : ∀ byte ∈ field.digits, isSpace byte = false := fun byte member =>
  (field.isHex byte member).separates.1

theorem noNul : ∀ byte ∈ field.digits, byte ≠ 0 := fun byte member =>
  (field.isHex byte member).separates.2.2.2.2.2

/-- A printed number. -/
def printed (width value : Nat) : HexField width :=
  ⟨printHex width value, printHex_length width value, printHex_isHex width value⟩

theorem printed_number {width value : Nat} (fits : value < 16 ^ width) :
    (printed width value).number = value :=
  hexNumber_printHex fits

/-! ## Scanning fields -/

theorem head_solid (positive : 0 < n) (rest : List UInt8) :
    ∀ byte, (field.digits ++ rest).head? = some byte → isSpace byte = false := by
  obtain ⟨first, digits, split⟩ := List.exists_cons_of_ne_nil (field.nonempty positive)
  rw [split]
  rintro byte ⟨⟩
  exact field.solid first (split ▸ List.mem_cons_self)

theorem sscanf_space_digits (positive : 0 < n) (format : List Directive) (rest : List UInt8) :
    sscanf (.space :: format) (32 :: (field.digits ++ rest)) =
      sscanf format (field.digits ++ rest) :=
  sscanf_space format _ (field.head_solid positive rest)

/-- `%x` into a target that is wide enough reads the number of the field. -/
theorem sscanf_hex_digits (positive : 0 < n) (fits : n ≤ 16) {bits : Nat} (wide : 4 * n ≤ bits)
    (format : List Directive) (rest : List UInt8)
    (ends : ∀ byte, rest.head? = some byte → isSpace byte = true) :
    sscanf (.hex none bits :: format) (field.digits ++ rest) =
      .number field.number :: sscanf format rest := by
  have small : field.number < 2 ^ bits := by
    calc field.number < 16 ^ n := field.number_lt
      _ = 2 ^ (4 * n) := by rw [Nat.pow_mul]
      _ ≤ 2 ^ bits := Nat.pow_le_pow_right (by decide) wide
  rw [sscanf_hex bits format field.digits rest field.isHex (field.nonempty positive)
    (by rw [field.length_eq]; exact fits) ends]
  show Item.number (field.number % 2 ^ bits) :: _ = _
  rw [Nat.mod_eq_of_lt small]

theorem sscanf_text_digits (positive : 0 < n) (format : List Directive) (rest : List UInt8)
    (ends : ∀ byte, rest.head? = some byte → isSpace byte = true) :
    sscanf (.text :: format) (field.digits ++ rest) =
      .text field.digits :: sscanf format rest :=
  sscanf_text format field.digits rest (field.nonempty positive) field.solid ends

end HexField

end CText
