import Streaming.Proofs.Text.Lines
import Streaming.Text.Positioned

/-!
# Lines joined again

Joining strings gives the characters of each of them and its suffix (`Joined.elements_eq`). Places
that are counted in bytes are always boundaries between characters, so counting them gives the same
(`Positioned.Stands.exists_answers`).

Hence the lines of a text, joined, are the text with its last line terminated, and joining lines
that have no newline in them loses nothing (`lines_and_joined_lines`).
-/

namespace Streaming.Text

universe u v w x

/-! ## The characters of joined strings -/

namespace Joined

variable {σ : Type u} [FinitePull σ String] {s : Joined σ}

theorem pull_of_nil (h : s.current = some []) :
    Pull.pull s = (some s.suffix, { s with current := none }) := by
  change s.next = _
  simp only [next, h]
  rfl

theorem pull_of_cons {c : Char} {rest : List Char} (h : s.current = some (c :: rest)) :
    Pull.pull s = (some c, { s with current := some rest }) := by
  change s.next = _
  simp only [next, h]
  rfl

theorem pull_of_strings_none (h : s.current = none) {strings : σ}
    (hp : Pull.pull s.strings = (none, strings)) : Pull.pull s = (none, { s with strings }) := by
  change s.next = _
  simp only [next, h, hp]

theorem pull_of_strings_some (h : s.current = none) {strings : σ} {text : String}
    (hp : Pull.pull s.strings = (some text, strings)) :
    Pull.pull s = (some ({ s with strings }.within text.toList).1,
      ({ s with strings }.within text.toList).2) := by
  change s.next = _
  simp only [next, h, hp]

/-- What is left of a string that was begun comes first. -/
theorem elements_of_current {rest : List Char} (h : s.current = some rest) :
    Pull.elements s = rest ++ s.suffix :: Pull.elements { s with current := none } := by
  induction rest generalizing s with
  | nil => exact Pull.elements_of_some (pull_of_nil h)
  | cons c rest ih => rw [Pull.elements_of_some (pull_of_cons h), ih rfl, List.cons_append]

/-- A string that has been pulled is the current one. -/
theorem pull_eq_of_strings_some (h : s.current = none) {strings : σ} {text : String}
    (hp : Pull.pull s.strings = (some text, strings)) :
    Pull.pull s = Pull.pull { s with strings, current := some text.toList } := by
  rw [pull_of_strings_some h hp]
  change _ = next _
  simp only [next]
  cases text.toList <;> rfl

theorem elements_of_strings_some (h : s.current = none) {strings : σ} {text : String}
    (hp : Pull.pull s.strings = (some text, strings)) :
    Pull.elements s =
      text.toList ++ s.suffix :: Pull.elements { s with strings, current := none } := by
  rw [Pull.elements_eq_of_pull_eq (pull_eq_of_strings_some h hp), elements_of_current rfl]

/-- The characters of each string and its suffix. -/
theorem elements_eq (h : s.current = none) :
    Pull.elements s =
      (Pull.elements s.strings).flatMap fun text => text.toList ++ [s.suffix] := by
  induction hs : Pull.elements s.strings generalizing s with
  | nil =>
    obtain ⟨strings, hp⟩ := Pull.exists_of_elements_nil hs
    exact Pull.elements_of_none (pull_of_strings_none h hp)
  | cons text texts ih =>
    obtain ⟨strings, hp, hrest⟩ := Pull.exists_of_elements_cons hs
    rw [elements_of_strings_some h hp, ih (s := { s with strings, current := none }) rfl hrest,
      List.flatMap_cons, List.append_assoc, List.singleton_append]

end Joined

/-! ## Places counted in bytes -/

theorem behindBytes?_append (front rest : List Char) :
    behindBytes? (front ++ rest) (byteLength front) = some rest := by
  induction front with
  | nil => rw [List.nil_append, byteLength, behindBytes?]
  | cons c front ih =>
    have hpos := c.utf8Size_pos
    rw [List.cons_append, byteLength]
    obtain ⟨n, hn⟩ : ∃ n, c.utf8Size + byteLength front = n + 1 :=
      ⟨c.utf8Size + byteLength front - 1, by omega⟩
    have hrest : n + 1 - c.utf8Size = byteLength front := by omega
    rw [hn, behindBytes?, if_pos (by omega), hrest, ih]

/-- A place inside a character is none behind a front. -/
example : behindBytes? ['é', 'b'] 2 = some ['b'] ∧ behindBytes? ['é', 'b'] 1 = none := by decide

theorem byteLength_append_singleton (front : List Char) (c : Char) :
    byteLength (front ++ [c]) = byteLength front + c.utf8Size := by
  induction front with
  | nil => simp [byteLength]
  | cons d front ih => rw [List.cons_append, byteLength, byteLength, ih, Nat.add_assoc]

namespace Positioned

variable {σ : Type u}

/-- The place is behind the characters of the current string that have been read. -/
inductive Stands : Positioned σ → Joined σ → Prop where
  | idle (strings : σ) (position : Nat) (suffix : Char) :
    Stands ⟨strings, none, position, suffix⟩ ⟨strings, none, suffix⟩
  | inside (strings : σ) (front rest : List Char) (suffix : Char) :
    Stands ⟨strings, some (String.ofList (front ++ rest)), byteLength front, suffix⟩
      ⟨strings, some rest, suffix⟩

theorem exists_within (strings : σ) (front rest : List Char) (current : Option String)
    (position : Nat) (left : Option (List Char)) (suffix : Char) :
    let next := (⟨strings, left, suffix⟩ : Joined σ).within rest
    ∃ t, (⟨strings, current, position, suffix⟩ : Positioned σ).within?
        (String.ofList (front ++ rest)) (byteLength front) = some (some next.1, t) ∧
      Stands t next.2 := by
  rw [within?, String.toList_ofList, behindBytes?_append]
  cases rest with
  | nil => exact ⟨_, rfl, .idle strings _ suffix⟩
  | cons c rest =>
    refine ⟨_, rfl, ?_⟩
    have hstands := Stands.inside strings (front ++ [c]) rest suffix
    rwa [byteLength_append_singleton, List.append_assoc] at hstands

variable [FinitePull σ String] {s : Positioned σ} {t : Joined σ}

/-- The place is always a boundary, and the answer is that of the characters that are left. -/
theorem Stands.exists_next (h : Stands s t) :
    ∃ u, s.next? = some ((Pull.pull t).1, u) ∧ Stands u (Pull.pull t).2 := by
  cases h with
  | inside strings front rest suffix =>
    exact exists_within strings front rest _ _ _ suffix
  | idle strings position suffix =>
    cases hp : Pull.pull strings with
    | mk answer others =>
      cases answer with
      | none =>
        have hpull := Joined.pull_of_strings_none (s := ⟨strings, none, suffix⟩) rfl hp
        refine ⟨⟨others, none, position, suffix⟩, ?_, ?_⟩
        · rw [hpull, next?, hp]
        · rw [hpull]
          exact .idle others position suffix
      | some text =>
        have hpull := Joined.pull_of_strings_some (s := ⟨strings, none, suffix⟩) rfl hp
        have hnext := exists_within others [] text.toList none position none suffix
        rw [List.nil_append, String.ofList_toList] at hnext
        obtain ⟨u, hu, hstands⟩ := hnext
        refine ⟨u, ?_, ?_⟩
        · rw [hpull, next?, hp]
          exact hu
        · rw [hpull]
          exact hstands

theorem Stands.exists_answers (h : Stands s t) (n : Nat) :
    ∃ u, s.answers? n = some ((Pull.answers n t).1, u) ∧ Stands u (Pull.answers n t).2 :=
  Pull.exists_answers_of_exists_next (fun _ => rfl) (fun _ _ => rfl) (fun h => h.exists_next) h n

end Positioned

/-! ## Joining lines -/

theorem elements_ofLines {σ : Type u} [FinitePull σ String] (strings : σ) :
    Pull.elements (Joined.ofLines strings) =
      ((Pull.elements strings).map String.toList).flatMap (· ++ ['\n']) := by
  rw [Joined.elements_eq rfl, List.flatMap_map]
  rfl

/-- **Lines and joined lines.** The lines of a text, joined, are the text, with a newline behind it
if its last line has none. Strings without a newline are the lines of their joined characters. The
lines of a text that is cut behind a newline are those of its two parts. Folding lines runs the fold
on each of the lines, and none of the runs is without a result. The places in the joined strings are
boundaries between characters. -/
theorem lines_and_joined_lines {σ : Type u} [FinitePull σ Char] (chars : σ) {ρ : Type v}
    [FinitePull ρ String] (strings : ρ) {τ : Type w} {β : Type x} (f : Fold Char τ β)
    (front behind : List Char) :
    let text := Pull.elements chars
    let cut := Lines.start .toText chars
    let folded := Lines.start f chars
    Pull.elements (Joined.ofLines cut) =
        (if text = [] ∨ text.getLast? = some '\n' then text else text ++ ['\n']) ∧
      ((∀ line ∈ Pull.elements strings, '\n' ∉ line.toList) →
        Pull.elements (Lines.start .toText (Joined.ofLines strings)) = Pull.elements strings) ∧
      lines (front ++ ['\n'] ++ behind) = lines (front ++ ['\n']) ++ lines behind ∧
      ((∃ t, folded.groups.collect = some ((Pull.elements folded).map .ok, t)) ∧
        (Pull.elements folded, (Pull.collect folded).2.groups.fault) =
          f.runAll ((Pull.elements cut).map String.toList)) ∧
      ∀ n, ∃ place, (Positioned.ofLines strings).answers? n =
        some ((Pull.answers n (Joined.ofLines strings)).1, place) := by
  intro text cut folded
  refine ⟨?joined, ?separated, ?behind, ?folded, ?places⟩
  case joined =>
    rw [elements_ofLines, map_toList_elements_toText]
    exact joined_splits isNewline_iff text
  case separated =>
    intro hlines
    have hgroups : ∀ group ∈ (Pull.elements strings).map String.toList,
        ∀ c ∈ group, isNewline c = false := by
      intro group hgroup c hc
      obtain ⟨line, hline, rfl⟩ := List.mem_map.mp hgroup
      have hne : c ≠ '\n' := fun h => hlines line hline (h ▸ hc)
      exact beq_eq_false_iff_ne.mpr hne
    rw [elements_toText, elements_ofLines, splits_joined rfl hgroups, map_ofList_map_toList]
  case behind =>
    rw [lines_eq, lines_eq, lines_eq, List.append_assoc, List.singleton_append,
      splits_append_of_sep rfl, List.map_append]
  case folded =>
    obtain ⟨t, hcollect, hfolded⟩ := Lines.exists_collect_start f chars
    refine ⟨⟨t, hcollect⟩, ?_⟩
    rw [map_toList_elements_toText]
    exact hfolded
  case places =>
    intro n
    obtain ⟨place, hanswers, -⟩ := (Positioned.Stands.idle strings 0 '\n').exists_answers n
    exact ⟨place, hanswers⟩

/-- Lines of which one is empty and one has a character of two bytes, and a text whose last line has
no newline. -/
theorem lines_and_joined_lines_emptyLine :
    let strings := Supply.ofList ["", "é", "b"]
    let chars := Supply.ofList ['a', '\n', '\n', 'b']
    (∀ line ∈ Pull.elements strings, '\n' ∉ line.toList) ∧
      Pull.elements (Lines.start .toText (Joined.ofLines strings)) = ["", "é", "b"] ∧
      Pull.elements (Joined.ofLines (Lines.start .toText chars)) =
        ['a', '\n', '\n', 'b', '\n'] ∧
      lines ['a', '\n', '\n', 'b'] = lines ['a', '\n'] ++ lines ['\n', 'b'] ∧
      Pull.elements (Lines.start .toList chars) =
        (Pull.elements (Lines.start .toText chars)).map String.toList := by
  intro strings chars
  have hstrings : Pull.elements strings = ["", "é", "b"] := Supply.elements_ofList _
  have hchars : Pull.elements chars = ['a', '\n', '\n', 'b'] := Supply.elements_ofList _
  have hnone : ∀ line ∈ Pull.elements strings, '\n' ∉ line.toList := by
    rw [hstrings]
    decide
  obtain ⟨hjoined, hseparated, hbehind, ⟨-, hfolded⟩, -⟩ :=
    lines_and_joined_lines chars strings .toList ['a'] ['\n', 'b']
  refine ⟨hnone, (hseparated hnone).trans hstrings, ?_, hbehind, ?_⟩
  · rw [hjoined, hchars]
    decide
  · rw [Fold.runAll_toList] at hfolded
    exact congrArg Prod.fst hfolded

end Streaming.Text
