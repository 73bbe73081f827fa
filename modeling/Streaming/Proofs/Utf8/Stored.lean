import Mathlib.Data.Nat.Digits.Defs
import Streaming.Proofs.Json
import Streaming.Utf8.Stored

/-!
# Decoders that are stored and loaded

Little is asked of what writes and reads decoders as text: numbers are written in decimal,
structures as objects, choices as their names or as objects of their names and contents, all without
blanks; and what is read of a text is made of what is read of its parts (`Codecs.Tagged`). It
follows that the text of a decoder says all that there is to say about it, so it is read back as the
same decoder (`Codecs.Tagged.read?_write`). Decoding in pieces with the decoder stored after each of
them is therefore the same as handing it over as it is (`storing_is_invisible`).

The library's own JSON forms are written and read in this way (`Codecs.tagged_json`).
-/

namespace Streaming.Utf8

open Json (Legible)

/-! ## The text of structures and choices -/

/-- A name in quotes. -/
def quoted (name : String) : String := "\"" ++ name ++ "\""

/-- The text of an object, from the texts of its fields. -/
def object (fields : List (String × String)) : String :=
  "\x7b" ++ ",".intercalate (fields.map fun f => quoted f.1 ++ ":" ++ f.2) ++ "\x7d"

/-- The codecs write compact JSON in the externally tagged form, and read it part by part. -/
structure Codecs.Tagged (c : Codecs) : Prop where
  /-- Numbers are written in decimal. -/
  write_byte : ∀ b, c.byte.write b = b.toNat.repr
  write_word : ∀ w, c.word.write w = w.toNat.repr
  /-- A wrapped value is written as the value. -/
  write_bits : ∀ w, c.bits.write w = c.word.write w
  /-- A choice without content is written as its name. -/
  write_ready : c.state.write .ready = quoted "Ready"
  /-- One with content is written as an object of its name and its content. -/
  write_expect : ∀ remaining lower upper, c.state.write (.expect remaining lower upper) =
    object [("Expect", object [("remaining", c.byte.write remaining),
      ("lower", c.byte.write lower), ("upper", c.byte.write upper)])]
  /-- A structure is written as an object of its fields, in their order. -/
  write_decoder : ∀ d, c.decoder.write d =
    object [("state", c.state.write d.state), ("code_point", c.bits.write d.bits)]
  /-- Numbers in decimal are read if they fit. -/
  read_byte : ∀ n < 256, c.byte.read? n.repr = some (UInt8.ofNat n)
  read_word : ∀ n < 4294967296, c.word.read? n.repr = some (UInt32.ofNat n)
  /-- What is read as a value is read as the value wrapped. -/
  read_bits : ∀ text w, c.word.read? text = some w → c.bits.read? text = some w
  /-- A name is read as the choice without content. -/
  read_ready : c.state.read? (quoted "Ready") = some .ready
  /-- An object of a name and a content is read as the choice, if the content is read. -/
  read_expect : ∀ {remaining lower upper : String} {r l u : UInt8},
    c.byte.read? remaining = some r → c.byte.read? lower = some l → c.byte.read? upper = some u →
    c.state.read? (object [("Expect", object [("remaining", remaining), ("lower", lower),
      ("upper", upper)])]) = some (.expect r l u)
  /-- An object of the fields is read as the structure, if the fields are read. A text this short
  does not nest values beyond what readers follow. -/
  read_decoder : ∀ {state bits : String} {s : State} {w : UInt32}, state.length < 128 →
    c.state.read? state = some s → c.bits.read? bits = some w →
    c.decoder.read? (object [("state", state), ("code_point", bits)]) = some ⟨s, w⟩

/-- The text of a decoder: an object of the state and the bits. A state without numbers is its name,
and one with numbers an object of its name and an object of these. -/
def Decoder.written (d : Decoder) : String :=
  match d.state with
  | .ready => "\x7b\"state\":\"Ready\",\"code_point\":" ++ d.bits.toNat.repr ++ "\x7d"
  | .expect remaining lower upper =>
    "\x7b\"state\":\x7b\"Expect\":\x7b\"remaining\":" ++ remaining.toNat.repr ++
      ",\"lower\":" ++ lower.toNat.repr ++ ",\"upper\":" ++ upper.toNat.repr ++
      "\x7d\x7d,\"code_point\":" ++ d.bits.toNat.repr ++ "\x7d"

/-! ## Writing and reading back -/

theorem length_toDigits_toNat_le (b : UInt8) : (Nat.toDigits 10 b.toNat).length ≤ 3 := by
  have hlt := b.toNat_lt
  exact Nat.toDigits_length _ _ _ (by decide) (by omega)

namespace Codecs.Tagged

variable {c : Codecs} (h : c.Tagged)

include h

theorem read?_write_byte (b : UInt8) : c.byte.read? (c.byte.write b) = some b := by
  rw [h.write_byte, h.read_byte _ b.toNat_lt, UInt8.ofNat_toNat]

theorem read?_write_bits (w : UInt32) : c.bits.read? (c.bits.write w) = some w := by
  apply h.read_bits
  rw [h.write_bits, h.write_word, h.read_word _ w.toNat_lt, UInt32.ofNat_toNat]

theorem read?_write_state (s : State) : c.state.read? (c.state.write s) = some s := by
  cases s with
  | ready =>
    rw [h.write_ready]
    exact h.read_ready
  | expect remaining lower upper =>
    rw [h.write_expect]
    exact h.read_expect (h.read?_write_byte _) (h.read?_write_byte _) (h.read?_write_byte _)

/-- No number of a state is long, so its text is not either. -/
theorem length_write_state_lt (s : State) : (c.state.write s).length < 128 := by
  cases s with
  | ready =>
    rw [h.write_ready]
    decide
  | expect remaining lower upper =>
    have hremaining := length_toDigits_toNat_le remaining
    have hlower := length_toDigits_toNat_le lower
    have hupper := length_toDigits_toNat_le upper
    rw [h.write_expect, h.write_byte, h.write_byte, h.write_byte, ← String.length_toList]
    simp [object, quoted]
    omega

/-- A decoder is read back from its text. -/
theorem read?_write (d : Decoder) : c.decoder.read? (c.decoder.write d) = some d := by
  rw [h.write_decoder]
  exact h.read_decoder (h.length_write_state_lt _) (h.read?_write_state _) (h.read?_write_bits _)

theorem write_eq_written (d : Decoder) : c.decoder.write d = d.written := by
  obtain ⟨state, bits⟩ := d
  rw [h.write_decoder, h.write_bits, h.write_word]
  apply String.toList_inj.mp
  cases state with
  | ready =>
    rw [h.write_ready]
    simp [object, quoted, Decoder.written]
  | expect remaining lower upper =>
    rw [h.write_expect, h.write_byte, h.write_byte, h.write_byte]
    simp [object, quoted, Decoder.written]

end Codecs.Tagged

/-- Storing the decoder between the pieces changes nothing if it is read back. -/
theorem decodeStored_write {codec : Codec Decoder}
    (h : ∀ d, codec.read? (codec.write d) = some d) (d : Decoder) (pieces : List (List UInt8)) :
    decodeStored codec (codec.write d) pieces = decodePieces d pieces := by
  induction pieces generalizing d with
  | nil => rfl
  | cons bytes rest ih =>
    rw [decodeStored, h, decodePieces]
    exact congrArg (Piece.decode d bytes :: ·) (ih _)

/-! ## The JSON forms -/

theorem byteOf?_toNat (b : UInt8) : byteOf? (.int b.toNat) = some b := by
  have hlt := b.toNat_lt
  show (if b.toNat < 256 then some (UInt8.ofNat b.toNat) else none) = some b
  rw [if_pos hlt, UInt8.ofNat_toNat]

theorem wordOf?_toNat (w : UInt32) : wordOf? (.int w.toNat) = some w := by
  have hlt := w.toNat_lt
  show (if w.toNat < 4294967296 then some (UInt32.ofNat w.toNat) else none) = some w
  rw [if_pos hlt, UInt32.ofNat_toNat]

namespace State

theorem legible_toJson (s : State) : Legible s.toJson := by
  cases s with
  | ready => exact .str _
  | expect remaining lower upper =>
    have hnumbers : Legible (.obj [("remaining", .int remaining.toNat), ("lower", .int lower.toNat),
        ("upper", .int upper.toNat)]) := by
      refine .obj fun field hfield => ?_
      simp only [List.mem_cons, List.not_mem_nil, or_false] at hfield
      rcases hfield with rfl | rfl | rfl <;> exact .int _
    refine .obj fun field hfield => ?_
    rw [List.mem_singleton] at hfield
    exact hfield ▸ hnumbers

theorem ofJson?_toJson (s : State) : ofJson? s.toJson = some s := by
  cases s with
  | ready => rfl
  | expect remaining lower upper =>
    have hstate : ofJson? (toJson (.expect remaining lower upper)) =
        (do
          let remaining ← byteOf? (.int remaining.toNat)
          let lower ← byteOf? (.int lower.toNat)
          let upper ← byteOf? (.int upper.toNat)
          some (.expect remaining lower upper)) := by
      rfl
    rw [hstate, byteOf?_toNat, byteOf?_toNat, byteOf?_toNat]
    rfl

end State

namespace Decoder

theorem legible_toJson (d : Decoder) : Legible d.toJson := by
  refine .obj fun field hfield => ?_
  simp only [List.mem_cons, List.not_mem_nil, or_false] at hfield
  rcases hfield with rfl | rfl
  · exact d.state.legible_toJson
  · exact .int _

theorem ofJson?_toJson (d : Decoder) : ofJson? d.toJson = some d := by
  have hdecoder : ofJson? d.toJson =
      (do some ⟨← State.ofJson? d.state.toJson, ← wordOf? (.int d.bits.toNat)⟩) := by
    rfl
  rw [hdecoder, State.ofJson?_toJson, wordOf?_toNat]
  rfl

end Decoder

/-- A value is read from its own text and from no other. -/
theorem read?_ofJson_eq_some_iff {α : Type} {toJson : α → Json} {ofJson? : Json → Option α}
    (hlegible : ∀ a, Legible (toJson a)) (hread : ∀ a, ofJson? (toJson a) = some a)
    {text : String} {a : α} :
    (Codec.ofJson toJson ofJson?).read? text = some a ↔ text = (toJson a).render := by
  simp only [Codec.ofJson, Option.filter_eq_some_iff, beq_iff_eq]
  constructor
  · rintro ⟨-, rfl⟩
    rfl
  · rintro rfl
    rw [Json.parse?_render (hlegible a), Option.bind_some]
    exact ⟨hread a, rfl⟩

theorem render_ready : State.ready.toJson.render = quoted "Ready" := by
  have hready : Json.stringChars "Ready" = "\"Ready\"".toList := rfl
  apply String.toList_inj.mp
  simp [Json.render, State.toJson, Json.chars, hready, quoted]

theorem render_expect (remaining lower upper : UInt8) :
    (State.expect remaining lower upper).toJson.render =
    object [("Expect", object [("remaining", remaining.toNat.repr), ("lower", lower.toNat.repr),
      ("upper", upper.toNat.repr)])] := by
  have hexpect : Json.stringChars "Expect" = "\"Expect\"".toList := rfl
  have hremaining : Json.stringChars "remaining" = "\"remaining\"".toList := rfl
  have hlower : Json.stringChars "lower" = "\"lower\"".toList := rfl
  have hupper : Json.stringChars "upper" = "\"upper\"".toList := rfl
  apply String.toList_inj.mp
  simp [Json.render, State.toJson, Json.chars, Json.fieldsChars, hexpect, hremaining, hlower,
    hupper, Json.intChars_natCast, object, quoted]

theorem render_decoder (d : Decoder) : d.toJson.render =
    object [("state", d.state.toJson.render), ("code_point", d.bits.toNat.repr)] := by
  have hstate : Json.stringChars "state" = "\"state\"".toList := rfl
  have hbits : Json.stringChars "code_point" = "\"code_point\"".toList := rfl
  apply String.toList_inj.mp
  simp [Json.render, Decoder.toJson, Json.chars, Json.fieldsChars, hstate, hbits,
    Json.intChars_natCast, object, quoted]

section Readers

variable {text : String}

theorem read?_byte_iff {b : UInt8} : Codecs.json.byte.read? text = some b ↔ text = b.toNat.repr :=
  read?_ofJson_eq_some_iff (fun _ => .int _) byteOf?_toNat

theorem read?_bits_iff {w : UInt32} : Codecs.json.bits.read? text = some w ↔ text = w.toNat.repr :=
  read?_ofJson_eq_some_iff (fun _ => .int _) wordOf?_toNat

theorem read?_state_iff {s : State} :
    Codecs.json.state.read? text = some s ↔ text = s.toJson.render :=
  read?_ofJson_eq_some_iff State.legible_toJson State.ofJson?_toJson

theorem read?_decoder_iff {d : Decoder} :
    Codecs.json.decoder.read? text = some d ↔ text = d.toJson.render :=
  read?_ofJson_eq_some_iff Decoder.legible_toJson Decoder.ofJson?_toJson

end Readers

/-- The JSON forms are written and read in this way. -/
theorem Codecs.tagged_json : Codecs.json.Tagged where
  write_byte _ := rfl
  write_word _ := rfl
  write_bits _ := rfl
  write_ready := render_ready
  write_expect := render_expect
  write_decoder := render_decoder
  read_byte n hn := by
    rw [read?_byte_iff, UInt8.toNat_ofNat_of_lt' hn]
  read_word n hn := by
    have hword : Codecs.json.bits.read? n.repr = some (UInt32.ofNat n) := by
      rw [read?_bits_iff, UInt32.toNat_ofNat_of_lt' hn]
    exact hword
  read_bits _ _ hread := hread
  read_ready := read?_state_iff.mpr render_ready.symm
  read_expect hremaining hlower hupper := by
    obtain rfl := read?_byte_iff.mp hremaining
    obtain rfl := read?_byte_iff.mp hlower
    obtain rfl := read?_byte_iff.mp hupper
    exact read?_state_iff.mpr (render_expect _ _ _).symm
  read_decoder := by
    intro state bits s w _ hstate hbits
    obtain rfl := read?_state_iff.mp hstate
    obtain rfl := read?_bits_iff.mp hbits
    exact read?_decoder_iff.mpr (render_decoder ⟨s, w⟩).symm

/-- **Storing is invisible**, whatever writes and reads the text in the externally tagged form. A
decoder is written as an object of its state and its bits, in decimal, and is read from that text
again, whatever its numbers are. Pieces that are decoded with the decoder stored after each of them
give the same items and leave the same decoders as with the decoder handed over as it is. -/
theorem storing_is_invisible {c : Codecs} (h : c.Tagged) (d : Decoder)
    (pieces : List (List UInt8)) :
    c.decoder.write d = d.written ∧ c.decoder.read? (c.decoder.write d) = some d ∧
      decodeStored c.decoder (c.decoder.write d) pieces = decodePieces d pieces :=
  ⟨h.write_eq_written d, h.read?_write d, decodeStored_write h.read?_write d pieces⟩

/-- The JSON form of a decoder behind the first two bytes of three, from which the third byte and
another one are decoded. -/
theorem storing_is_invisible_json :
    Codecs.json.Tagged ∧
      Codecs.json.decoder.write ⟨.expect 1 128 191, 130⟩ =
        "\x7b\"state\":\x7b\"Expect\":\x7b\"remaining\":1,\"lower\":128,\"upper\":191\x7d\x7d" ++
          ",\"code_point\":130\x7d" ∧
      (decodeStored Codecs.json.decoder (Codecs.json.decoder.write ⟨.expect 1 128 191, 130⟩)
        [[0xAC], [0x35]]).map Piece.items = [[.ok '€'], [.ok '5']] := by
  have h := Codecs.tagged_json
  obtain ⟨hwrite, -, hpieces⟩ := storing_is_invisible h ⟨.expect 1 128 191, 130⟩ [[0xAC], [0x35]]
  refine ⟨h, hwrite, ?_⟩
  rw [hpieces]
  decide +kernel

end Streaming.Utf8
