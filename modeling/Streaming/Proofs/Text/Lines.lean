import Mathlib.Data.Set.List
import Streaming.Proofs.Chunks
import Streaming.Proofs.Parser.Splits
import Streaming.Proofs.Utf8.RoundTrip
import Streaming.Text.Lines

/-!
# Lines of text and groups of bytes

The lines of a stream of characters are its groups between newlines (`Lines.elements_start`). The
byte of a newline is in the encoding of no other character, so encoding the groups of a text gives
the groups of its bytes (`splits_encoded`), and splitting bytes that are decoded without an error
commutes with decoding them (`lines_decode_eq_decode_groups`).
-/

namespace Streaming.Text

open Utf8

universe u v w x

/-! ## Lines are groups -/

theorem toText_total : Fold.toText.Total := Fold.ofFn_total "" String.push id

theorem output_toText (cs : List Char) : toText_total.output cs = String.ofList cs := by
  have hall : ∀ text : String,
      Fold.toText.stepAll text cs = .ok (text ++ String.ofList cs) := by
    induction cs with
    | nil => exact fun text => congrArg Except.ok String.append_empty.symm
    | cons c cs ih =>
      intro text
      have hstep : Fold.toText.step text c = .ok (text.push c) := rfl
      simp only [Fold.stepAll, hstep]
      rw [ih, String.push_eq_append, String.append_assoc, String.ofList_cons]
  have hgiven : Fold.toText.Given cs (String.ofList cs) := by
    rw [Fold.Given, hall]
    exact congrArg Except.ok String.empty_append
  exact toText_total.output_eq hgiven

namespace Lines

variable {σ : Type u} {τ : Type v} {β : Type w} [FinitePull σ Char]

theorem pull_of_step_none {s t : Lines σ τ β} (h : s.step = (none, t)) :
    Pull.pull s = (none, t) := by
  change s.next = _
  rw [next]
  split <;> rename_i hs <;> rw [h] at hs <;> cases hs
  rfl

theorem pull_of_step_ok {s t : Lines σ τ β} {b : β} (h : s.step = (some (.ok b), t)) :
    Pull.pull s = (some b, t) := by
  change s.next = _
  rw [next]
  split <;> rename_i hs <;> rw [h] at hs <;> cases hs
  rfl

theorem groups_next (s : Lines σ τ β) : s.groups.next = some (s.step.1, s.step.2.groups) :=
  Repetition.next_eq_nextForward s.forward

/-- The lines are the results of the runs, if each of these has one. -/
theorem collect_of_collect {s : Lines σ τ β} {bs : List β} {t : Repetition σ Char τ β}
    (h : s.groups.collect = some (bs.map .ok, t)) :
    (Pull.collect s).1 = bs ∧ (Pull.collect s).2.groups = t := by
  induction bs generalizing s with
  | nil =>
    have hnext := s.groups_next
    cases hs : s.step with
    | mk answer l =>
      rw [hs] at hnext
      cases answer with
      | none =>
        rw [Repetition.collect_of_next_none hnext] at h
        cases h
        rw [Pull.collect_of_none (pull_of_step_none hs)]
        exact ⟨rfl, rfl⟩
      | some a =>
        rw [Repetition.collect_of_next_some hnext] at h
        obtain ⟨rest, -, hcons⟩ := Option.map_eq_some_iff.mp h
        cases hcons
  | cons b bs ih =>
    have hnext := s.groups_next
    cases hs : s.step with
    | mk answer l =>
      rw [hs] at hnext
      cases answer with
      | none =>
        rw [Repetition.collect_of_next_none hnext] at h
        cases h
      | some a =>
        rw [Repetition.collect_of_next_some hnext] at h
        obtain ⟨⟨rest, last⟩, hrest, hcons⟩ := Option.map_eq_some_iff.mp h
        cases hcons
        obtain ⟨hlines, hlast⟩ := ih hrest
        rw [Pull.collect_of_some (pull_of_step_ok hs), hlines]
        exact ⟨rfl, hlast⟩

/-- The runs all have results, the groups between newlines folded one by one, and these are the
lines. -/
theorem exists_collect_start (fold : Fold Char τ β) (chars : σ) :
    ∃ t, (start fold chars).groups.collect =
        some ((Pull.elements (start fold chars)).map .ok, t) ∧
      (Pull.elements (start fold chars), (Pull.collect (start fold chars)).2.groups.fault) =
        fold.runAll (splits isNewline (Pull.elements chars)) := by
  obtain ⟨t, hcollect, hfault⟩ := (Parser.groups_upTo isNewline fold).collect
    (Parser.upTo_forward isNewline fold) (Source.ofInput chars : Source σ Char)
  rw [Source.elements_ofInput] at hcollect hfault
  obtain ⟨hlines, hlast⟩ := collect_of_collect (s := start fold chars) hcollect
  refine ⟨t, ?_, ?_⟩
  · rw [Pull.elements, hlines]
    exact hcollect
  · rw [Pull.elements, hlines, hlast, hfault]

/-- The lines of a stream are the groups between its newlines, folded one by one. -/
theorem elements_start {fold : Fold Char τ β} (hf : fold.Total) (chars : σ) :
    Pull.elements (start fold chars) =
      (splits isNewline (Pull.elements chars)).map hf.output := by
  obtain ⟨-, -, hlines⟩ := exists_collect_start fold chars
  rw [hf.runAll_eq] at hlines
  exact congrArg Prod.fst hlines

end Lines

section Strings

theorem map_toList_map_ofList (groups : List (List Char)) :
    (groups.map String.ofList).map String.toList = groups := by
  have hid : String.toList ∘ String.ofList = id := funext fun _ => String.toList_ofList
  rw [List.map_map, hid, List.map_id]

theorem map_ofList_map_toList (texts : List String) :
    (texts.map String.toList).map String.ofList = texts := by
  have hid : String.ofList ∘ String.toList = id := funext fun _ => String.ofList_toList
  rw [List.map_map, hid, List.map_id]

end Strings

theorem isNewline_iff (c : Char) : isNewline c = true ↔ c = '\n' := beq_iff_eq

section ToText

variable {σ : Type u} [FinitePull σ Char] (chars : σ)

/-- The lines of a text, as strings. -/
theorem elements_toText :
    Pull.elements (Lines.start .toText chars) =
      (splits isNewline (Pull.elements chars)).map String.ofList := by
  rw [Lines.elements_start toText_total]
  exact List.map_congr_left fun line _ => output_toText line

theorem map_toList_elements_toText :
    (Pull.elements (Lines.start .toText chars)).map String.toList =
      splits isNewline (Pull.elements chars) := by
  rw [elements_toText, map_toList_map_ofList]

theorem lines_eq (text : List Char) : lines text = (splits isNewline text).map String.ofList := by
  rw [lines, elements_toText, Supply.elements_ofList]

end ToText

/-! ## The bytes of lines -/

/-- Whether a byte is that of a newline. -/
def isNewlineByte (b : UInt8) : Bool := b == 0x0A

theorem encode_newline : encode '\n' = [0x0A] := rfl

/-- No byte of another character is that of a newline. -/
theorem not_isNewlineByte_of_mem_encode {c : Char} (hc : isNewline c = false) {b : UInt8}
    (hb : b ∈ encode c) : isNewlineByte b = false := by
  unfold isNewlineByte
  rw [beq_eq_false_iff_ne]
  rintro rfl
  have hnat : 0x0A = c.toNat := (stamped_encode c).eq_of_mem_of_lt hb (by decide)
  have hchar : c = '\n' := Char.toNat_inj.mp hnat.symm
  rw [hchar] at hc
  cases hc

theorem map_encoded_glue (c : Char) (gs : List (List Char)) :
    (glue [c] gs).map encoded = glue (encode c) (gs.map encoded) := by
  cases gs with
  | nil =>
    simp only [glue, List.map_nil, List.map_singleton, encoded_cons, encoded_nil, List.append_nil]
  | cons g gs =>
    simp only [glue, List.map_cons, List.singleton_append, encoded_cons]

/-- The groups of encoded text are the encoded groups of the text. -/
theorem splits_encoded (cs : List Char) :
    splits isNewlineByte (encoded cs) = (splits isNewline cs).map encoded := by
  induction cs with
  | nil =>
    rw [encoded_nil]
    rfl
  | cons c cs ih =>
    rw [encoded_cons]
    cases hc : isNewline c with
    | true =>
      obtain rfl : c = '\n' := eq_of_beq hc
      have hbyte : isNewlineByte 0x0A = true := rfl
      rw [encode_newline, splits_cons_of_sep hc, List.map_cons, encoded_nil, ← ih]
      exact splits_cons_of_sep hbyte _
    | false =>
      have hbytes : ∀ b ∈ encode c, isNewlineByte b = false :=
        fun b hb => not_isNewlineByte_of_mem_encode hc hb
      rw [splits_append (Encoding.encode_ne_nil c) hbytes, splits_cons_of_not_sep hc,
        map_encoded_glue, ih]

/-! ## Bytes without an error -/

/-- The bytes are decoded without an error. -/
def Errorless (bs : List UInt8) : Prop :=
  ∀ item ∈ Pull.elements (Decoding.start .report (Supply.ofList bs)), ∃ c : Char, item = .ok c

theorem errorless_encoded (cs : List Char) : Errorless (encoded cs) := by
  intro item hitem
  rw [Decoding.elements_report_ofList, report_encoded] at hitem
  obtain ⟨c, -, hc⟩ := List.mem_map.mp hitem
  exact ⟨c, hc.symm⟩

theorem Errorless.exists_encoded {bs : List UInt8} (h : Errorless bs) : ∃ cs, encoded cs = bs := by
  obtain ⟨cs, hcs⟩ : ({} : Decoder).report bs ∈ Set.range (List.map Except.ok) := by
    rw [Set.range_list_map, ← Decoding.elements_report_ofList]
    intro item hitem
    exact (h item hitem).imp fun _ hc => hc.symm
  exact ⟨cs, report_eq_map_ok_iff.mp hcs.symm⟩

theorem elements_strict_of_encoded {σ : Type u} [FinitePull σ UInt8] {input : σ} {cs : List Char}
    (h : Pull.elements input = encoded cs) : Pull.elements (Characters.strict input) = cs := by
  rw [Characters.elements_strict, h, report_encoded, leading_map_ok]

/-- **Splitting commutes with decoding.** The lines of bytes without an error are the groups of the
bytes between their newlines, decoded one by one, and none of the groups has an error. It does not
matter on either side what gives the bytes, chunks or the bytes one by one. -/
theorem lines_decode_eq_decode_groups {bs : List UInt8} (h : Errorless bs) :
    ∃ groups : List (List UInt8),
      (∀ {ρ : Type u} [FinitePull ρ UInt8] (raw : ρ), Pull.elements raw = bs →
        ∃ t, (Repetition.start (.upTo isNewlineByte .toList) (.ofInput raw)).collect =
          some (groups.map .ok, t) ∧ t.fault = none) ∧
      (∀ {σ : Type v} [FinitePull σ UInt8] (input : σ), Pull.elements input = bs →
        Pull.elements (Lines.start .toText (Characters.strict input)) =
          groups.map fun group =>
            String.ofList (Pull.elements (Characters.strict (Supply.ofList group)))) ∧
      ∀ group ∈ groups, Errorless group := by
  obtain ⟨cs, rfl⟩ := h.exists_encoded
  refine ⟨(splits isNewline cs).map encoded, ?_, ?_, ?_⟩
  · intro ρ _ raw hraw
    have hcollect := Parser.collect_upTo_toList isNewlineByte (Source.ofInput raw : Source ρ UInt8)
    rwa [Source.elements_ofInput, hraw, splits_encoded] at hcollect
  · intro σ _ input hinput
    rw [Lines.elements_start toText_total, elements_strict_of_encoded hinput, List.map_map]
    apply List.map_congr_left
    intro line _
    have hline := elements_strict_of_encoded (Supply.elements_ofList (encoded line))
    rw [output_toText, Function.comp_apply, hline]
  · intro group hgroup
    obtain ⟨line, -, rfl⟩ := List.mem_map.mp hgroup
    exact errorless_encoded line

/-- Two lines that are read in other chunks than their bytes are split in. Either way, a chunk ends
inside a character. -/
theorem lines_decode_eq_decode_groups_twoLines :
    let raw := ChunkReader.ofList ([[0x61, 0xC3], [], [0xA9, 0x0A, 0x62]] : List (List UInt8))
    let input := ChunkReader.ofList ([[0x61], [0xC3], [0xA9, 0x0A], [0x62]] : List (List UInt8))
    Errorless [0x61, 0xC3, 0xA9, 0x0A, 0x62] ∧
      ∃ groups t, groups = [[0x61, 0xC3, 0xA9], [0x62]] ∧
        (Repetition.start (.upTo isNewlineByte .toList) (.ofInput raw)).collect =
          some (groups.map .ok, t) ∧
        Pull.elements (Lines.start .toText (Characters.strict input)) =
          groups.map fun group =>
            String.ofList (Pull.elements (Characters.strict (Supply.ofList group))) := by
  intro raw input
  have hbytes : encoded ['a', 'é', '\n', 'b'] = [0x61, 0xC3, 0xA9, 0x0A, 0x62] := encoded_eq _
  have hclean : Errorless [0x61, 0xC3, 0xA9, 0x0A, 0x62] := hbytes ▸ errorless_encoded _
  have hraw : Pull.elements raw = [0x61, 0xC3, 0xA9, 0x0A, 0x62] := ChunkReader.elements_ofList _
  have hinput : Pull.elements input = [0x61, 0xC3, 0xA9, 0x0A, 0x62] :=
    ChunkReader.elements_ofList _
  obtain ⟨groups, hgroups, hlines, -⟩ := lines_decode_eq_decode_groups.{0, 0} hclean
  obtain ⟨t, hcollect, -⟩ := hgroups raw hraw
  refine ⟨hclean, groups, t, ?_, hcollect, hlines input hinput⟩
  obtain ⟨t', hsplits, -⟩ := Parser.collect_upTo_toList isNewlineByte (Source.ofInput raw)
  rw [hcollect, Source.elements_ofInput, hraw] at hsplits
  have hmap := congrArg Prod.fst (Option.some.inj hsplits)
  exact List.map_injective_iff.mpr (fun _ _ => Except.ok.inj) hmap

end Streaming.Text
