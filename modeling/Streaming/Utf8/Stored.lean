import Streaming.Json.Reader
import Streaming.Supply
import Streaming.Utf8.Decoding

/-!
# Stored decoders and policies

Between two pieces of input a decoder is kept as text. What writes and reads the text is not fixed
here: it is passed in, one codec for each type that a decoder is made of (`Codecs`).

The JSON forms of a decoder and of a policy are one way to do it (`Codecs.json`). A choice without
content is written as its name, and may also be read as an object that maps its name to null. Any
numbers of the right widths make a decoder.
-/

namespace Streaming

/-- What writes the values of a type as text, and what reads them back. -/
structure Codec (α : Type) where
  write : α → String
  read? : String → Option α

namespace Utf8

/-- The codecs of a decoder and of what it is made of: a state with numbers of one byte, and the
bits, which are a word of their own type. -/
structure Codecs where
  byte : Codec UInt8
  word : Codec UInt32
  state : Codec State
  bits : Codec UInt32
  decoder : Codec Decoder

/-! ## JSON forms -/

/-- The word of a number that fits in eight bits. -/
def byteOf? (j : Json) : Option UInt8 :=
  j.nat?.bind fun n => if n < 256 then some (UInt8.ofNat n) else none

/-- The word of a number that fits in 32 bits. -/
def wordOf? (j : Json) : Option UInt32 :=
  j.nat?.bind fun n => if n < 4294967296 then some (UInt32.ofNat n) else none

/-- The name of a choice without content. -/
def choiceOf? : Json → Option String
  | .str name => some name
  | j =>
    match j.only? with
    | some (name, .null) => some name
    | _ => none

namespace State

/-- The JSON form of a state. -/
def toJson : State → Json
  | .ready => .str "Ready"
  | .expect remaining lower upper =>
    .obj [("Expect", .obj [("remaining", .int remaining.toNat), ("lower", .int lower.toNat),
      ("upper", .int upper.toNat)])]

/-- The state inside a sequence, from its three numbers. -/
def expectOf? (j : Json) : Option State := do
  let remaining ← byteOf? (← j.get? "remaining")
  let lower ← byteOf? (← j.get? "lower")
  let upper ← byteOf? (← j.get? "upper")
  some (.expect remaining lower upper)

/-- Reads a state. -/
def ofJson? (j : Json) : Option State :=
  if choiceOf? j = some "Ready" then some .ready
  else
    match j.only? with
    | some ("Expect", content) => expectOf? content
    | _ => none

end State

namespace Decoder

/-- The JSON form of a decoder. -/
def toJson (d : Decoder) : Json :=
  .obj [("state", d.state.toJson), ("code_point", .int d.bits.toNat)]

/-- Reads a decoder, from an object or from an array of its two parts. -/
def ofJson? : Json → Option Decoder
  | .arr [state, bits] => do some ⟨← State.ofJson? state, ← wordOf? bits⟩
  | j => do some ⟨← State.ofJson? (← j.get? "state"), ← wordOf? (← j.get? "code_point")⟩

end Decoder

namespace Policy

/-- The JSON form of a policy. -/
def toJson (p : Policy) : Json := .str p.name

/-- Reads a policy. -/
def ofJson? (j : Json) : Option Policy :=
  match choiceOf? j with
  | some "Strict" => some .strict
  | some "Lenient" => some .lenient
  | some "Report" => some .report
  | _ => none

end Policy

end Utf8

/-- Writes the compact text of a JSON form, and reads no other text. -/
def Codec.ofJson {α : Type} (toJson : α → Json) (ofJson? : Json → Option α) : Codec α where
  write a := (toJson a).render
  read? text := ((Json.parse? text).bind ofJson?).filter fun a => (toJson a).render == text

namespace Utf8

/-- The codecs of the JSON forms. -/
def Codecs.json : Codecs where
  byte := .ofJson (fun b => .int b.toNat) byteOf?
  word := .ofJson (fun w => .int w.toNat) wordOf?
  state := .ofJson State.toJson State.ofJson?
  bits := .ofJson (fun w => .int w.toNat) wordOf?
  decoder := .ofJson Decoder.toJson Decoder.ofJson?

/-! ## Decoding in pieces -/

/-- What comes of one piece of the input. -/
structure Piece where
  items : List Item
  /-- The errors disposed of in the piece, in order. -/
  disposals : List Disposal
  /-- The decoder that the piece leaves. -/
  decoder : Decoder
deriving Repr

namespace Piece

/-- Decodes a piece to its end, going on from a decoder and reporting errors. -/
def decode (decoder : Decoder) (bytes : List UInt8) : Piece :=
  let (items, s) := Pull.collect (Decoding.resume decoder (Supply.ofList bytes))
  ⟨items, s.disposals, s.decoder⟩

end Piece

/-- Decodes the pieces of an input, each from the decoder stored after the one before it. A text
that is not read back ends it. -/
def decodeStored (codec : Codec Decoder) :
    (stored : String) → (pieces : List (List UInt8)) → List Piece
  | _, [] => []
  | stored, bytes :: rest =>
    match codec.read? stored with
    | none => []
    | some decoder =>
      let piece := Piece.decode decoder bytes
      piece :: decodeStored codec (codec.write piece.decoder) rest

/-- The same with the decoder handed over as it is. -/
def decodePieces : (decoder : Decoder) → (pieces : List (List UInt8)) → List Piece
  | _, [] => []
  | decoder, bytes :: rest =>
    let piece := Piece.decode decoder bytes
    piece :: decodePieces piece.decoder rest

end Utf8

end Streaming
