import Streaming.Inspect
import Streaming.Text.Printable

/-!
# Quoted text

Characters, strings and single bytes as they are shown between quotes. A few characters have an
escape of one letter, the quote and the backslash are escaped with a backslash, and what has no
shape of its own is written by its number in hexadecimal.
-/

namespace Streaming.Text

/-- A number in lower-case hexadecimal, with zeros in front up to `width` digits. -/
def hex (width n : Nat) : String :=
  let digits := Nat.toDigits 16 n
  String.ofList (List.replicate (width - digits.length) '0' ++ digits)

/-- A number in upper-case hexadecimal, with zeros in front up to `width` digits. -/
def upperHex (width n : Nat) : String := (hex width n).map Char.toUpper

/-- The escapes that do not depend on the quote. -/
def shortEscape? : Char → Option String
  | '\x00' => some "\\0"
  | '\t' => some "\\t"
  | '\n' => some "\\n"
  | '\r' => some "\\r"
  | '\\' => some "\\\\"
  | _ => none

/-- A character as it stands between quotes of the given kind. -/
def escaped (quote c : Char) : String :=
  match shortEscape? c with
  | some text => text
  | none =>
    if c = quote then String.ofList ['\\', c]
    else if isPrintable c then c.toString
    else "\\u\x7b" ++ hex 1 c.toNat ++ "\x7d"

/-- A character in single quotes. -/
def quotedChar (c : Char) : String := "'" ++ escaped '\'' c ++ "'"

/-- A string in double quotes. -/
def quotedString (s : String) : String :=
  "\"" ++ String.join (s.toList.map (escaped '"')) ++ "\""

/-- A byte as it stands between quotes: ASCII that can be seen as it is, with both kinds of quote
escaped, and any other byte by its number. -/
def escapedByte (b : UInt8) : String :=
  let c := Char.ofUInt8 b
  match shortEscape? c with
  | some text => text
  | none =>
    if c = '"' || c = '\'' then String.ofList ['\\', c]
    else if 0x20 ≤ b && b < 0x7F then c.toString
    else "\\x" ++ hex 2 b.toNat

/-- A byte in double quotes. -/
def quotedByte (b : UInt8) : String := "\"" ++ escapedByte b ++ "\""

end Streaming.Text

namespace Streaming

instance : Inspect Char := ⟨Text.quotedChar⟩
instance : Inspect String := ⟨Text.quotedString⟩

end Streaming
