import Mathlib.Algebra.GroupWithZero.Nat

/-!
Contract: the length of what `printf` prints into fields with a minimum width.

A format is its list of fields: text of any length, a decimal number with zeros in front of
its digits, and text with blanks behind it. A width is a minimum; a value that needs more gets
more.

Owns the length of a field and of a line as their widths and the characters beyond them, and
the numbers that stay within their width.
-/

namespace Printf

/-- The text between the conversions and `%s`, `%0wd`, and `%-ws`. -/
inductive Field where
  | text (characters : List UInt8)
  | decimal (width : Nat) (value : Int)
  | padded (width : Nat) (characters : List UInt8)
deriving DecidableEq, Repr

def sign (value : Int) : List UInt8 := if value < 0 then [45] else []

def digits (value : Int) : List UInt8 := (Nat.toDigits 10 value.natAbs).map Char.toUInt8

/-- Characters of a number without any padding. -/
def size (value : Int) : Nat := (sign value).length + (digits value).length

namespace Field

def print : Field → List UInt8
  | .text characters => characters
  | .decimal width value =>
      sign value ++ List.replicate (width - size value) 48 ++ digits value
  | .padded width characters => characters ++ List.replicate (width - characters.length) 32

/-- Characters that the field has at least. -/
def width : Field → Nat
  | .text characters => characters.length
  | .decimal width _ => width
  | .padded width _ => width

/-- Characters beyond the width. -/
def excess : Field → Nat
  | .text _ => 0
  | .decimal width value => size value - width
  | .padded width characters => characters.length - width

theorem length_print (field : Field) : field.print.length = field.width + field.excess := by
  cases field with
  | text characters => rfl
  | decimal width value =>
      have whole : (sign value).length + (digits value).length = size value := rfl
      rw [print, List.length_append, List.length_append, List.length_replicate, Field.width, excess]
      omega
  | padded width characters =>
      rw [print, List.length_append, List.length_replicate, Field.width, excess]
      omega

end Field

/-- What `sprintf` writes before the terminator. -/
def printf (fields : List Field) : List UInt8 := fields.flatMap Field.print

theorem length_printf (fields : List Field) :
    (printf fields).length = (fields.map Field.width).sum + (fields.map Field.excess).sum := by
  induction fields with
  | nil => rfl
  | cons field fields inductionHypothesis =>
      have rest : (fields.flatMap Field.print).length = _ := inductionHypothesis
      rw [printf, List.flatMap_cons, List.length_append, rest, field.length_print, List.map_cons,
        List.map_cons, List.sum_cons, List.sum_cons]
      omega

/-! ## Numbers -/

theorem length_digits_le_iff (value : Int) {count : Nat} (positive : 0 < count) :
    (digits value).length ≤ count ↔ value.natAbs < 10 ^ count := by
  rw [digits, List.length_map]
  exact Nat.length_toDigits_le_iff (by decide) positive

/-- A number without a sign stays within the width by its digits, one with a sign has one
character less for them. -/
theorem excess_decimal_iff (value : Int) {width : Nat} (wide : 1 < width) :
    (Field.decimal width value).excess = 0 ↔
      value.natAbs < 10 ^ (if value < 0 then width - 1 else width) := by
  rw [Field.excess, size, sign]
  by_cases negative : value < 0
  · have fits := length_digits_le_iff value (show 0 < width - 1 by omega)
    rw [if_pos negative, if_pos negative, ← fits, List.length_singleton]
    omega
  · have fits := length_digits_le_iff value (show 0 < width by omega)
    rw [if_neg negative, if_neg negative, ← fits, List.length_nil]
    omega

end Printf
