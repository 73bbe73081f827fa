/-!
# Showing values

The text that shows a value: numbers in decimal, a record as its name and its fields, a call as its
name and its arguments, a list in square brackets.
-/

namespace Streaming

universe u

/-- Types whose values can be shown. -/
class Inspect (α : Type u) where
  /-- The text that shows a value. -/
  inspect : α → String

export Inspect (inspect)

namespace Inspect

/-- A record: its name and its fields in order. -/
def record (name : String) (fields : List (String × String)) : String :=
  name ++ " \x7b " ++ ", ".intercalate (fields.map fun f => f.1 ++ ": " ++ f.2) ++ " \x7d"

/-- A record that keeps its fields to itself. -/
def closedRecord (name : String) : String := name ++ " \x7b .. \x7d"

/-- A name applied to arguments. -/
def call (name : String) (args : List String) : String :=
  name ++ "(" ++ ", ".intercalate args ++ ")"

/-- A list in square brackets. -/
def bracketed (items : List String) : String := "[" ++ ", ".intercalate items ++ "]"

end Inspect

instance : Inspect Nat := ⟨fun n => n.repr⟩
instance : Inspect UInt8 := ⟨fun n => n.toNat.repr⟩
instance : Inspect UInt32 := ⟨fun n => n.toNat.repr⟩

instance : Inspect Int where
  inspect
    | .ofNat n => n.repr
    | .negSucc n => "-" ++ (n + 1).repr

instance : Inspect Int64 := ⟨fun n => inspect n.toInt⟩

instance : Inspect Bool := ⟨fun b => if b then "true" else "false"⟩

instance {α : Type u} [Inspect α] : Inspect (List α) :=
  ⟨fun xs => Inspect.bracketed (xs.map inspect)⟩

instance {ε α : Type u} [Inspect ε] [Inspect α] : Inspect (Except ε α) where
  inspect
    | .ok a => Inspect.call "Ok" [inspect a]
    | .error e => Inspect.call "Err" [inspect e]

instance {α : Type u} [Inspect α] : Inspect (Option α) where
  inspect
    | none => "None"
    | some a => Inspect.call "Some" [inspect a]

end Streaming
