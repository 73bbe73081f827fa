import Streaming.Json

/-!
# Reading JSON

Each reader takes what it reads from the front of the characters and gives back the rest. Blanks
may stand before and after every value and punctuation mark.
-/

namespace Streaming.Json

/-- The characters that may stand between the parts of a value. -/
def isBlank (c : Char) : Bool := c = ' ' || c = '\t' || c = '\n' || c = '\r'

/-- The characters after the blanks in front. -/
def skipBlanks (cs : List Char) : List Char := cs.dropWhile isBlank

/-! ## Strings -/

/-- The value of a hexadecimal digit. -/
def hexValue? (c : Char) : Option Nat :=
  if c.isDigit then some (c.toNat - '0'.toNat)
  else if 'a' ≤ c ∧ c ≤ 'f' then some (c.toNat - 'a'.toNat + 10)
  else if 'A' ≤ c ∧ c ≤ 'F' then some (c.toNat - 'A'.toNat + 10)
  else none

/-- The value of four hexadecimal digits. -/
def unit? (a b c d : Char) : Option Nat := do
  let a ← hexValue? a
  let b ← hexValue? b
  let c ← hexValue? c
  let d ← hexValue? d
  some (((a * 16 + b) * 16 + c) * 16 + d)

/-- The character of a code point that is no surrogate. -/
def charOf? (n : Nat) : Option Char := if n.isValidChar then some (Char.ofNat n) else none

/-- The character of a pair of surrogates. -/
def pairOf? (high low : Nat) : Option Char :=
  if 0xD800 ≤ high ∧ high < 0xDC00 ∧ 0xDC00 ≤ low ∧ low < 0xE000 then
    charOf? (0x10000 + (high - 0xD800) * 0x400 + (low - 0xDC00))
  else none

/-- The character of an escape of one letter. -/
def shortEscape? : Char → Option Char
  | '"' => some '"'
  | '\\' => some '\\'
  | '/' => some '/'
  | 'b' => some '\x08'
  | 'f' => some '\x0c'
  | 'n' => some '\n'
  | 'r' => some '\r'
  | 't' => some '\t'
  | _ => none

/-- The characters of a string up to its closing quote, and what follows the quote. -/
def stringBody? : List Char → Option (List Char × List Char)
  | [] => none
  | c :: rest =>
    if c = '"' then some ([], rest)
    else if c = '\\' then
      match rest with
      | [] => none
      | e :: rest =>
        match shortEscape? e with
        | some c => (stringBody? rest).map fun r => (c :: r.1, r.2)
        | none =>
          if e = 'u' then
            match rest with
            | a :: b :: c :: d :: rest =>
              match unit? a b c d with
              | none => none
              | some high =>
                match charOf? high with
                | some c => (stringBody? rest).map fun r => (c :: r.1, r.2)
                | none =>
                  match rest with
                  | '\\' :: 'u' :: a :: b :: c :: d :: rest =>
                    match (unit? a b c d).bind (pairOf? high) with
                    | some c => (stringBody? rest).map fun r => (c :: r.1, r.2)
                    | none => none
                  | _ => none
            | _ => none
          else none
    else if c.toNat < 0x20 then none
    else (stringBody? rest).map fun r => (c :: r.1, r.2)

/-! ## Numbers -/

/-- The characters that numbers are made of. -/
def isNumberChar (c : Char) : Bool :=
  c.isDigit || c = '-' || c = '+' || c = '.' || c = 'e' || c = 'E'

/-- Whether the characters are a row of digits. -/
def isDigits (cs : List Char) : Bool := !cs.isEmpty && cs.all Char.isDigit

/-- Whether the characters are a whole number without a needless zero in front. -/
def isWhole (cs : List Char) : Bool := isDigits cs && (cs.head? != some '0' || cs.length == 1)

/-- Whether the characters are an exponent after its letter. -/
def isExponent : List Char → Bool
  | '+' :: cs => isDigits cs
  | '-' :: cs => isDigits cs
  | cs => isDigits cs

/-- Whether the characters are a number without its sign. -/
def isUnsigned (cs : List Char) : Bool :=
  let isExponentMark (c : Char) : Bool := c = 'e' || c = 'E'
  let mantissa := cs.takeWhile fun c => !isExponentMark c
  let exponent := cs.dropWhile fun c => !isExponentMark c
  let fraction := mantissa.dropWhile Char.isDigit
  isWhole (mantissa.takeWhile Char.isDigit) &&
    (fraction.isEmpty || fraction.head? == some '.' && isDigits fraction.tail) &&
    (exponent.isEmpty || isExponent exponent.tail)

/-- The number that the characters write. A zero with a minus sign is no whole number. -/
def number? : List Char → Option Json
  | '-' :: cs =>
    if isWhole cs && cs != ['0'] then some (.int (-(Nat.ofDigitChars 10 cs 0 : Int)))
    else if isUnsigned cs then some (.real ('-' :: cs))
    else none
  | cs =>
    if isWhole cs then some (.int (Nat.ofDigitChars 10 cs 0 : Int))
    else if isUnsigned cs then some (.real cs)
    else none

/-! ## Values -/

/-- The characters after a given text, if they start with it. -/
def after? : (text cs : List Char) → Option (List Char)
  | [], cs => some cs
  | _ :: _, [] => none
  | t :: text, c :: cs => if t = c then after? text cs else none

mutual

/-- Reads a value with at most `n` values inside one another or side by side. -/
def value? : Nat → List Char → Option (Json × List Char)
  | 0, _ => none
  | n + 1, cs =>
    match skipBlanks cs with
    | [] => none
    | c :: rest =>
      if c = '"' then (stringBody? rest).map fun r => (.str (String.ofList r.1), r.2)
      else if c = '[' then
        match skipBlanks rest with
        | ']' :: rest => some (.arr [], rest)
        | rest => (items? n rest).map fun r => (.arr r.1, r.2)
      else if c = '\x7b' then
        match skipBlanks rest with
        | '\x7d' :: rest => some (.obj [], rest)
        | rest => (fields? n rest).map fun r => (.obj r.1, r.2)
      else if c = 'n' then (after? ['u', 'l', 'l'] rest).map fun r => (.null, r)
      else if c = 't' then (after? ['r', 'u', 'e'] rest).map fun r => (.bool true, r)
      else if c = 'f' then (after? ['a', 'l', 's', 'e'] rest).map fun r => (.bool false, r)
      else
        (number? ((c :: rest).takeWhile isNumberChar)).map fun j =>
          (j, (c :: rest).dropWhile isNumberChar)

/-- Reads the items of an array and the bracket after them. -/
def items? : Nat → List Char → Option (List Json × List Char)
  | 0, _ => none
  | n + 1, cs =>
    match value? n cs with
    | none => none
    | some (item, rest) =>
      match skipBlanks rest with
      | ',' :: rest => (items? n rest).map fun r => (item :: r.1, r.2)
      | ']' :: rest => some ([item], rest)
      | _ => none

/-- Reads the fields of an object and the brace after them. -/
def fields? : Nat → List Char → Option (List (String × Json) × List Char)
  | 0, _ => none
  | n + 1, cs =>
    match skipBlanks cs with
    | '"' :: rest =>
      match stringBody? rest with
      | none => none
      | some (name, rest) =>
        match skipBlanks rest with
        | ':' :: rest =>
          match value? n rest with
          | none => none
          | some (value, rest) =>
            match skipBlanks rest with
            | ',' :: rest => (fields? n rest).map fun r => ((String.ofList name, value) :: r.1, r.2)
            | '\x7d' :: rest => some ([(String.ofList name, value)], rest)
            | _ => none
        | _ => none
    | _ => none

end

/-- Reads a text that holds one value and nothing else but blanks. -/
def parse? (text : String) : Option Json :=
  let cs := text.toList
  match value? (2 * cs.length) cs with
  | some (j, rest) => if (skipBlanks rest).isEmpty then some j else none
  | none => none

end Streaming.Json
