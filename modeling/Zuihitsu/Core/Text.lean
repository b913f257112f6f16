/-
# Parsing what the agent types

The small readers at the boundary of a block: trimming, the words for a
cardinality and a volatility, and the supported subset of a recurrence rule.
Texts are read as lists of characters.
-/

import Zuihitsu.Core.Event

namespace Zuihitsu.Core

/-- The characters with the Unicode white-space property. -/
def isWhiteSpace (char : Char) : Bool :=
  let code := char.toNat
  (9 ≤ code && code ≤ 13) || code = 0x20 || code = 0x85 || code = 0xA0 || code = 0x1680 ||
    (0x2000 ≤ code && code ≤ 0x200A) || code = 0x2028 || code = 0x2029 || code = 0x202F ||
    code = 0x205F || code = 0x3000

/-- Drop the white space at both ends. -/
def trimmed (text : List Char) : List Char :=
  ((text.dropWhile isWhiteSpace).reverse.dropWhile isWhiteSpace).reverse

/-- A letter in upper case, outside ASCII unchanged. -/
def asciiUpper (char : Char) : Char :=
  if 'a' ≤ char && char ≤ 'z' then Char.ofNat (char.toNat - 32) else char

/-- A text in upper case, outside ASCII unchanged. -/
def asciiUppercase (text : List Char) : List Char := text.map asciiUpper

/-- A letter in lower case, outside ASCII unchanged. -/
def asciiLower (char : Char) : Char :=
  if 'A' ≤ char && char ≤ 'Z' then Char.ofNat (char.toNat + 32) else char

/-- A label in lower case, outside ASCII unchanged. -/
def asciiLowercase (text : String) : String := String.ofList (text.toList.map asciiLower)

/-- The parts of a text between the occurrences of a separator. -/
def splitOn (separator : Char) : List Char → List (List Char)
  | [] => [[]]
  | char :: rest =>
    if char = separator then [] :: splitOn separator rest
    else
      match splitOn separator rest with
      | [] => [[char]]
      | part :: parts => (char :: part) :: parts

/-- The parts of a text around the first occurrence of a separator. -/
def splitOnce (separator : Char) : List Char → Option (List Char × List Char)
  | [] => none
  | char :: rest =>
    if char = separator then some ([], rest)
    else (splitOnce separator rest).map fun parts => (char :: parts.1, parts.2)

/-- Parse a cardinality, in either case. -/
def Cardinality.parse (text : String) : Option Cardinality :=
  let word := asciiUppercase (trimmed text.toList)
  if word = "ONE".toList then some .one
  else if word = "MANY".toList then some .many
  else none

/-- Parse a volatility, in either case. -/
def Volatility.parse (text : String) : Option Volatility :=
  let word := asciiUppercase (trimmed text.toList)
  if word = "LOW".toList then some .low
  else if word = "MEDIUM".toList then some .medium
  else if word = "HIGH".toList then some .high
  else none

/-- The recurrence frequencies this build interprets. -/
inductive Freq where
  | daily
  | weekly
  | monthly
  | yearly
  deriving DecidableEq, Repr

/-- The value of a text of decimal digits, of which there is at least one. -/
def digitsValue (text : List Char) : Option Nat :=
  if text.isEmpty || !text.all Char.isDigit then none
  else some (text.foldl (fun value digit => value * 10 + (digit.toNat - '0'.toNat)) 0)

/-- Parse a positive 64-bit signed integer, which may carry a plus sign. -/
def parsePositive (text : List Char) : Option Nat :=
  let digits := match text with
    | '+' :: rest => rest
    | _ => text
  (digitsValue digits).filter fun value => 1 ≤ value && value < 2 ^ 63

/-- Read one part of a rule into the frequency and interval so far. -/
def parseRulePart (read : Option Freq × Nat) (part : List Char) : Option (Option Freq × Nat) :=
  let part := trimmed part
  if part.isEmpty then some read
  else
    (splitOnce '=' part).bind fun (key, value) =>
      let key := asciiUppercase (trimmed key)
      if key = "FREQ".toList then
        let word := asciiUppercase (trimmed value)
        if word = "DAILY".toList then some (some .daily, read.2)
        else if word = "WEEKLY".toList then some (some .weekly, read.2)
        else if word = "MONTHLY".toList then some (some .monthly, read.2)
        else if word = "YEARLY".toList then some (some .yearly, read.2)
        else none
      else if key = "INTERVAL".toList then
        (parsePositive (trimmed value)).map fun interval => (read.1, interval)
      else some read

/-- Parse the supported subset of a recurrence rule. -/
def parseRrule (rule : String) : Option (Freq × Nat) :=
  ((splitOn ';' rule.toList).foldlM parseRulePart (none, 1)).bind fun read =>
    read.1.map fun freq => (freq, read.2)

/-- Whether the scheduler can interpret a recurrence rule. -/
def rruleIsSupported (rule : String) : Bool := (parseRrule rule).isSome

example : parseRrule "freq=weekly; interval=2" = some (.weekly, 2) := by decide

end Zuihitsu.Core
