import Streaming.Proofs.Utf8.Policy
import Streaming.Proofs.Utf8.Segments

/-!
# Strict decoding

A strict run yields the characters before the first error of a reporting run. In a cut of the input
these stand for well-formed sequences, and what begins at the first error has no well-formed
beginning, so that strict decoding computes the longest well-formed prefix
(`strict_longest_prefix`).
-/

namespace Streaming.Utf8

theorem Stands.not_wellFormed_of_error {s t q : List UInt8} {e : DecodeError}
    (h : Stands s (.error e)) (ht : isIncomplete (.error e) = true → t = []) (hq : q <+: s ++ t) :
    ¬ WellFormed q := by
  cases h with
  | @invalid w b d _ hw _ hb =>
    -- A sequence that begins here ends before the refused byte or goes on with it.
    obtain hq | hq := List.prefix_or_prefix_of_prefix hq (List.prefix_append (w ++ [b]) t)
    · obtain rfl | hq := List.prefix_concat_iff.mp hq
      · exact fun h => hb ⟨[], by rwa [List.append_nil]⟩
      · exact hw.not_wellFormed_of_prefix hq
    · obtain ⟨u, rfl⟩ := hq
      exact fun h => hb ⟨u, h⟩
  | incomplete _ hw _ =>
    rw [ht rfl, List.append_nil] at hq
    exact hw.not_wellFormed_of_prefix hq

theorem Cuts.leading {bs : List UInt8} {ss : List (List UInt8)} {items : List Item}
    (h : Cuts bs ss items) :
    ∃ qs rest, bs = qs.flatten ++ rest ∧ List.Forall₂ Encodes qs (leading items) ∧
      (∀ q, q <+: rest → ¬ WellFormed q) ∧ ((∀ item ∈ items, ∃ c, item = .ok c) ↔ rest = []) := by
  induction items generalizing bs ss with
  | nil =>
    obtain ⟨rfl, hs, -⟩ := h
    cases hs
    refine ⟨[], [], rfl, .nil, fun q hq => ?_, by simp⟩
    rw [List.prefix_nil.mp hq]
    exact not_wellFormed_nil
  | cons item items ih =>
    obtain ⟨s, rest, hs, -, rfl⟩ := List.forall₂_cons_right_iff.mp h.stands
    have hflat : bs = s ++ rest.flatten := h.flatten.symm
    cases item with
    | ok c =>
      obtain ⟨qs, left, hbs, hqs, hleft, hiff⟩ := ih h.tail
      cases hs with
      | scalar hs =>
        refine ⟨s :: qs, left, ?_, .cons hs hqs, hleft, ?_⟩
        · rw [hflat, hbs, List.flatten_cons, List.append_assoc]
        · rw [← hiff]
          simp
    | error e =>
      refine ⟨[], bs, rfl, .nil, fun q hq => ?_, ?_⟩
      · exact hs.not_wellFormed_of_error h.nil_of_incomplete (hflat ▸ hq)
      · have hne : bs ≠ [] := by
          rw [hflat]
          exact List.append_ne_nil_of_left_ne_nil hs.ne_nil _
        refine iff_of_false (fun hall => ?_) hne
        obtain ⟨c, hc⟩ := hall _ (List.mem_cons_self ..)
        cases hc

/-- **Strict decoding computes the longest well-formed prefix.** The characters stand for sequences
of the table that the input begins with, one after the other, and no sequence of the table begins
what is left; nothing is left exactly if reporting finds no error. -/
theorem strict_longest_prefix (bs : List UInt8) :
    ∃ qs rest, bs = qs.flatten ++ rest ∧
      List.Forall₂ Encodes qs (Pull.elements (Characters.strict (Supply.ofList bs))) ∧
      (∀ q, q <+: rest → ¬ WellFormed q) ∧
      ((∀ item ∈ Pull.elements (Decoding.start .report (Supply.ofList bs)), ∃ c, item = .ok c) ↔
        rest = []) := by
  obtain ⟨ss, hcuts, -⟩ := exists_cuts (f := ⟨{}, bs⟩) rfl
  rw [Characters.elements_strict, Decoding.elements_start, Supply.elements_ofList]
  exact hcuts.leading

end Streaming.Utf8
