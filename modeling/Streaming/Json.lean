/-!
# JSON values

Values of the JSON format and their compact text. Whole numbers are kept apart from the other
numbers, which are kept as they were written.
-/

namespace Streaming

/-- A JSON value. -/
inductive Json where
  | null
  | bool (b : Bool)
  /-- A number written without fraction and exponent. -/
  | int (n : Int)
  /-- Any other number, as it was written. -/
  | real (text : List Char)
  | str (s : String)
  | arr (items : List Json)
  | obj (fields : List (String × Json))
deriving Inhabited

namespace Json

/-! ## Looking into values -/

/-- The value of a field; of several fields with one name the last counts. -/
def get? (name : String) : Json → Option Json
  | .obj fields => (fields.reverse.find? (·.1 == name)).map Prod.snd
  | _ => none

/-- The name and the value of the only field, if no other name occurs. -/
def only? : Json → Option (String × Json)
  | .obj fields =>
    match fields.reverse with
    | [] => none
    | last :: others => if others.all (·.1 == last.1) then some last else none
  | _ => none

/-- The number, if the value is a whole one that is not negative. -/
def nat? : Json → Option Nat
  | .int (.ofNat n) => some n
  | _ => none

/-- The characters, if the value is a string. -/
def str? : Json → Option String
  | .str s => some s
  | _ => none

/-- The items, if the value is an array. -/
def arr? : Json → Option (List Json)
  | .arr items => some items
  | _ => none

/-- The truth value, if the value is one. -/
def bool? : Json → Option Bool
  | .bool b => some b
  | _ => none

/-! ## Compact text -/

/-- The digit of a number below sixteen. -/
def hexDigit (n : Nat) : Char := Nat.digitChar n

/-- A character as it is written inside a string. -/
def escapeChar (c : Char) : List Char :=
  if c = '"' then ['\\', '"']
  else if c = '\\' then ['\\', '\\']
  else if c = '\n' then ['\\', 'n']
  else if c = '\r' then ['\\', 'r']
  else if c = '\t' then ['\\', 't']
  else if c.toNat < 0x20 then
    ['\\', 'u', '0', '0', hexDigit (c.toNat / 16), hexDigit (c.toNat % 16)]
  else [c]

/-- A string with its quotes. -/
def stringChars (s : String) : List Char := '"' :: (s.toList.flatMap escapeChar ++ ['"'])

/-- A whole number in decimal. -/
def intChars : Int → List Char
  | .ofNat n => Nat.toDigits 10 n
  | .negSucc n => '-' :: Nat.toDigits 10 (n + 1)

mutual

/-- The text of a value, without blanks. -/
def chars : Json → List Char
  | .null => ['n', 'u', 'l', 'l']
  | .bool true => ['t', 'r', 'u', 'e']
  | .bool false => ['f', 'a', 'l', 's', 'e']
  | .int n => intChars n
  | .real text => text
  | .str s => stringChars s
  | .arr [] => ['[', ']']
  | .arr (item :: items) => '[' :: (chars item ++ itemsChars items)
  | .obj [] => ['\x7b', '\x7d']
  | .obj ((name, value) :: fields) =>
    '\x7b' :: (stringChars name ++ ':' :: (chars value ++ fieldsChars fields))

/-- The text from the end of an item to the end of its array. -/
def itemsChars : List Json → List Char
  | [] => [']']
  | item :: items => ',' :: (chars item ++ itemsChars items)

/-- The text from the end of a field to the end of its object. -/
def fieldsChars : List (String × Json) → List Char
  | [] => ['\x7d']
  | (name, value) :: fields =>
    ',' :: (stringChars name ++ ':' :: (chars value ++ fieldsChars fields))

end

/-- The compact text of a value. -/
def render (j : Json) : String := String.ofList j.chars

end Json

end Streaming
