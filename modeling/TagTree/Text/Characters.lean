/-!
# Classes of characters

What the readers of the library ask about single characters, with what goes with
it: the classes that are given by ranges of code points, line breaks and
hexadecimal digits.

A class is a list of inclusive ranges. The one class that every part of the
library needs stands here, the characters with the Unicode property White_Space;
the larger tables stand with their users.

A line ends with a line feed, which a carriage return may precede. A carriage
return elsewhere is not a line break, and the languages that are read here
refuse it.

Hexadecimal digits are read in both cases and written in lower case. Byte
strings have two digits a byte. Not every number is the code point of a
character: the surrogates between `D800` and `DFFF` are none, and no escape
spells them.
-/
namespace TagTree

def Char.inRanges (ranges : List (Nat × Nat)) (c : Char) : Bool :=
  ranges.any fun r => r.1 ≤ c.toNat && c.toNat ≤ r.2

def blankRanges : List (Nat × Nat) :=
  [(0x09, 0x0D), (0x20, 0x20), (0x85, 0x85), (0xA0, 0xA0), (0x1680, 0x1680), (0x2000, 0x200A),
    (0x2028, 0x2029), (0x202F, 0x202F), (0x205F, 0x205F), (0x3000, 0x3000)]

/-- A blank character separates tokens and is refused inside names. -/
def isBlank (c : Char) : Bool := Char.inRanges blankRanges c

/-- What is left after a line break. -/
def lineBreak? : List Char → Option (List Char)
  | '\n' :: rest => some rest
  | '\r' :: '\n' :: rest => some rest
  | _ => none

/-- Whether every carriage return belongs to a line break. -/
def cleanBreaks : List Char → Bool
  | [] => true
  | '\r' :: '\n' :: rest => cleanBreaks rest
  | '\r' :: _ => false
  | _ :: rest => cleanBreaks rest

namespace Hex

/-- The lower-case digit of a number below sixteen. -/
def digit (n : Nat) : Char := if n < 10 then Char.ofNat (48 + n) else Char.ofNat (87 + n)

def value? (c : Char) : Option Nat :=
  if '0' ≤ c ∧ c ≤ '9' then some (c.toNat - 48)
  else if 'a' ≤ c ∧ c ≤ 'f' then some (c.toNat - 87)
  else if 'A' ≤ c ∧ c ≤ 'F' then some (c.toNat - 55)
  else none

def isDigit (c : Char) : Bool := (value? c).isSome

/-- The number that digits spell. -/
def number (digits : List Char) : Nat :=
  digits.foldl (fun n d => 16 * n + (value? d).getD 0) 0

/-- The character with a code point, which must not be a surrogate. -/
def scalar? (n : Nat) : Option Char :=
  if n < 0xD800 ∨ (0xE000 ≤ n ∧ n < 0x110000) then some (Char.ofNat n) else none

def ofBytes (bytes : List UInt8) : String :=
  String.ofList (bytes.flatMap fun b => [digit (b.toNat / 16), digit (b.toNat % 16)])

/-- The bytes of pairs of digits; an odd digit at the end is dropped. -/
def toBytes : List Char → List UInt8
  | a :: b :: rest => UInt8.ofNat (number [a, b]) :: toBytes rest
  | _ => []

end Hex
end TagTree
