import EbpfTools.Lib.Decimal
import EbpfTools.Lib.Wire

/-!
# Lines of printed fields

What the conversions `%-ns` and `%ns` print, and the readers for a line of fields: each returns what it read
and the rest of the text, and reads back what was printed in front of any rest.
-/

namespace EbpfTools.Lib

/-- `%-ns`: blanks fill the field on the right. -/
def padRight (n : Nat) (s : List UInt8) : List UInt8 := s ++ List.replicate (n - s.length) 32

/-- `%ns`: blanks fill the field on the left. -/
def padLeft (n : Nat) (s : List UInt8) : List UInt8 := List.replicate (n - s.length) 32 ++ s

/-- The text before the first `sep`, and what follows it. -/
def upTo (sep : UInt8) (bs : List UInt8) : Option (List UInt8 × List UInt8) :=
  match bs.dropWhile (· ≠ sep) with
  | [] => none
  | _ :: rest => some (bs.takeWhile (· ≠ sep), rest)

def skipBlanks (bs : List UInt8) : List UInt8 := bs.dropWhile (· = 32)

/-- A text without blanks, and what follows the blanks behind it. -/
def readWord (bs : List UInt8) : Option (List UInt8 × List UInt8) :=
  (upTo 32 bs).map fun p => (p.1, skipBlanks p.2)

/-- What follows `text`, if it is there. -/
def expect (text bs : List UInt8) : Option (List UInt8) :=
  if text.isPrefixOf bs then some (bs.drop text.length) else none

/-- A decimal numeral, and what follows its digits. -/
def readNumber (bs : List UInt8) : Nat × List UInt8 :=
  (digitsValue (bs.takeWhile isDigit), bs.dropWhile isDigit)

theorem upTo_append {sep : UInt8} {text : List UInt8} (h : sep ∉ text) (rest : List UInt8) :
    upTo sep (text ++ sep :: rest) = some (text, rest) := by
  have hp : ∀ c ∈ text, decide (c ≠ sep) = true := by
    intro c hc
    simpa using ne_of_mem_of_not_mem hc h
  rw [upTo, List.dropWhile_append_of_pos hp, List.takeWhile_append_of_pos hp]
  simp

theorem skipBlanks_replicate (n : Nat) {rest : List UInt8} (h : rest.head? ≠ some 32) :
    skipBlanks (List.replicate n 32 ++ rest) = rest := by
  have hp : ∀ c ∈ List.replicate n (32 : UInt8), decide (c = 32) = true := by
    intro c hc
    simpa using List.eq_of_mem_replicate hc
  rw [skipBlanks, List.dropWhile_append_of_pos hp]
  cases rest with
  | nil => rfl
  | cons c rest =>
      have hc : c ≠ 32 := fun he => h (by rw [he]; rfl)
      rw [List.dropWhile_cons, decide_eq_false hc]
      rfl

theorem readWord_padRight {s rest : List UInt8} (h : 32 ∉ s) (n : Nat)
    (hrest : rest.head? ≠ some 32) (k : Nat) :
    readWord (padRight n s ++ List.replicate (k + 1) 32 ++ rest) = some (s, rest) := by
  have hpad : padRight n s ++ List.replicate (k + 1) 32 ++ rest =
      s ++ 32 :: (List.replicate (n - s.length + k) 32 ++ rest) := by
    rw [padRight, List.append_assoc s, ← List.replicate_add, ← Nat.add_assoc, List.replicate_succ,
      List.append_assoc, List.cons_append]
  rw [readWord, hpad, upTo_append h, Option.map_some, skipBlanks_replicate _ hrest]

theorem expect_append (text rest : List UInt8) : expect text (text ++ rest) = some rest := by
  rw [expect, if_pos (List.isPrefixOf_iff_prefix.mpr (List.prefix_append text rest)),
    List.drop_left]

theorem readNumber_printDecimal (n : Nat) {rest : List UInt8}
    (h : ∀ c, rest.head? = some c → isDigit c = false) :
    readNumber (printDecimal n ++ rest) = (n, rest) := by
  have hp : ∀ c ∈ printDecimal n, isDigit c = true := fun c hc => isDigit_of_mem_printDecimal hc
  rw [readNumber, List.takeWhile_append_of_pos hp, List.dropWhile_append_of_pos hp]
  cases rest with
  | nil => rw [List.takeWhile_nil, List.append_nil, digitsValue_printDecimal, List.dropWhile_nil]
  | cons c rest =>
      have hc := h c rfl
      rw [List.takeWhile_cons, List.dropWhile_cons, hc]
      simp [digitsValue_printDecimal]

end EbpfTools.Lib
