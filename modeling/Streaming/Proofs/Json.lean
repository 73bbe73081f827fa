import Streaming.Json.Reader

/-!
# Written JSON is read back

The reader takes the compact text of a value off the front of the characters and leaves what
follows it (`Legible.readsBack`), so reading a text that was written gives the value again
(`parse?_render`). A number is the only value whose text does not show where it ends: what follows
it must not go on like a number (`Ends`). A number that is no whole one is kept as it was written,
and that has to be a number (`Legible`).
-/

namespace Streaming.Json

/-! ## Whole numbers -/

theorem head?_toDigits {n : Nat} (h : n ≠ 0) : (Nat.toDigits 10 n).head? ≠ some '0' := by
  induction n using Nat.strongRecOn with
  | ind n ih =>
    rw [Nat.toDigits_eq_if (by decide)]
    split
    · simpa using h
    · rename_i hle
      have hfront := ih (n / 10) (by omega) (by omega)
      have hne : Nat.toDigits 10 (n / 10) ≠ [] := Nat.toDigits_ne_nil
      obtain ⟨c, cs, hcs⟩ := List.exists_cons_of_ne_nil hne
      rw [hcs] at hfront ⊢
      exact hfront

theorem isWhole_toDigits (n : Nat) : isWhole (Nat.toDigits 10 n) = true := by
  have hdigits : isDigits (Nat.toDigits 10 n) = true := by
    have hall : ∀ c ∈ Nat.toDigits 10 n, c.isDigit = true := fun c hc =>
      Nat.isDigit_of_mem_toDigits (by decide) (by decide) hc
    simpa [isDigits, Nat.toDigits_ne_nil] using hall
  rw [isWhole, hdigits, Bool.true_and]
  by_cases hn : n = 0
  · rw [hn]
    decide
  · simp [head?_toDigits hn]

theorem toDigits_ne_zero {n : Nat} (h : n ≠ 0) : Nat.toDigits 10 n ≠ ['0'] := by
  intro hzero
  have hhead := head?_toDigits h
  rw [hzero] at hhead
  exact hhead rfl

theorem number?_of_isWhole {cs : List Char} (h : isWhole cs = true) :
    number? cs = some (.int (Nat.ofDigitChars 10 cs 0 : Int)) := by
  unfold number?
  split
  · simp [isWhole, isDigits, Char.isDigit] at h
  · rw [if_pos h]

theorem number?_intChars (n : Int) : number? (intChars n) = some (.int n) := by
  cases n with
  | ofNat n =>
    rw [intChars, number?_of_isWhole (isWhole_toDigits n), Nat.ofDigitChars_ten_toDigits]
    rfl
  | negSucc n =>
    have hne := toDigits_ne_zero (Nat.succ_ne_zero n)
    rw [intChars, number?, if_pos (by simp [isWhole_toDigits, hne]), Nat.ofDigitChars_ten_toDigits]
    rfl

theorem intChars_natCast (n : Nat) : intChars n = Nat.toDigits 10 n := rfl

theorem isNumberChar_of_mem_intChars {n : Int} {c : Char} (h : c ∈ intChars n) :
    isNumberChar c = true := by
  have hdigit {n : Nat} (hc : c ∈ Nat.toDigits 10 n) : isNumberChar c = true := by
    have := Nat.isDigit_of_mem_toDigits (by decide) (by decide) hc
    simp [isNumberChar, this]
  cases n with
  | ofNat n => exact hdigit h
  | negSucc n =>
    rcases List.mem_cons.mp h with rfl | h
    · rfl
    · exact hdigit h

/-! ## Strings -/

theorem hexValue?_hexDigit : ∀ n < 16, hexValue? (hexDigit n) = some n := by decide

theorem unit?_control {n : Nat} (h : n < 0x20) :
    unit? '0' '0' (hexDigit (n / 16)) (hexDigit (n % 16)) = some n := by
  have hzero : hexValue? '0' = some 0 := by decide
  have hhigh := hexValue?_hexDigit (n / 16) (by omega)
  have hlow := hexValue?_hexDigit (n % 16) (by omega)
  have hsum : ((0 * 16 + 0) * 16 + n / 16) * 16 + n % 16 = n := by omega
  simp only [unit?, hzero, hhigh, hlow, Option.bind_eq_bind, Option.bind_some, hsum]

theorem charOf?_toNat (c : Char) : charOf? c.toNat = some c := by
  have hvalid : c.toNat.isValidChar := c.valid
  rw [charOf?, if_pos hvalid, Char.ofNat_toNat]

/-- A character that needs no escape stands for itself. -/
theorem stringBody?_plain {c : Char} (hquote : c ≠ '"') (hslash : c ≠ '\\')
    (hhigh : ¬c.toNat < 0x20) (cs : List Char) :
    stringBody? (c :: cs) = (stringBody? cs).map fun r => (c :: r.1, r.2) := by
  rw [stringBody?.eq_def]
  simp only [if_neg hquote, if_neg hslash, if_neg hhigh]

/-- An escaped character is read as that character. -/
theorem stringBody?_escapeChar (c : Char) (cs : List Char) :
    stringBody? (escapeChar c ++ cs) = (stringBody? cs).map fun r => (c :: r.1, r.2) := by
  unfold escapeChar
  split
  · subst c
    rfl
  rename_i hquote
  split
  · subst c
    rfl
  rename_i hslash
  -- The three short escapes of blanks.
  iterate 3
    split
    · subst c
      rfl
  split
  · rename_i hlow
    show stringBody? ('\\' :: 'u' :: '0' :: '0' :: hexDigit (c.toNat / 16) ::
      hexDigit (c.toNat % 16) :: cs) = _
    rw [stringBody?.eq_def]
    simp only [unit?_control hlow, charOf?_toNat]
    rfl
  · rename_i hhigh
    exact stringBody?_plain hquote hslash hhigh cs

/-- The characters of a string are read up to the quote that ends it. -/
theorem stringBody?_flatMap_escapeChar (text rest : List Char) :
    stringBody? (text.flatMap escapeChar ++ '"' :: rest) = some (text, rest) := by
  induction text with
  | nil => rw [List.flatMap_nil, List.nil_append, stringBody?.eq_def]; rfl
  | cons c text ih =>
    rw [List.flatMap_cons, List.append_assoc, stringBody?_escapeChar, ih, Option.map_some]

/-! ## Numbers among other characters -/

/-- The characters do not go on like a number. -/
def Ends (rest : List Char) : Prop := ∀ c ∈ rest.head?, isNumberChar c = false

theorem ne_of_isNumberChar {c d : Char} (hc : isNumberChar c = true)
    (hd : isNumberChar d = false) : c ≠ d := by
  rintro rfl
  rw [hc] at hd
  cases hd

theorem isBlank_of_isNumberChar {c : Char} (h : isNumberChar c = true) : isBlank c = false := by
  have hne {d : Char} (hd : isNumberChar d = false) : c ≠ d := ne_of_isNumberChar h hd
  simp only [isBlank, hne (d := ' ') rfl, hne (d := '\t') rfl, hne (d := '\n') rfl,
    hne (d := '\r') rfl, decide_false, Bool.or_self]

theorem skipBlanks_cons {c : Char} (h : isBlank c = false) (cs : List Char) :
    skipBlanks (c :: cs) = c :: cs :=
  List.dropWhile_cons_of_neg (Bool.eq_false_iff.mp h)

/-- A number is read up to where the characters do not go on like one. -/
theorem value?_of_number? {text : List Char} {j : Json}
    (hall : ∀ c ∈ text, isNumberChar c = true) (hnum : number? text = some j) {rest : List Char}
    (hrest : Ends rest) (n : Nat) :
    value? (n + 1) (text ++ rest) = some (j, rest) := by
  have htake : (text ++ rest).takeWhile isNumberChar = text := by
    rw [List.takeWhile_append_of_pos hall]
    cases rest with
    | nil => simp
    | cons c cs => simp [hrest c rfl]
  have hdrop : (text ++ rest).dropWhile isNumberChar = rest := by
    rw [List.dropWhile_append_of_pos hall]
    cases rest with
    | nil => rfl
    | cons c cs => simp [hrest c rfl]
  cases text with
  | nil => cases hnum
  | cons c cs =>
    have hc := hall c (List.mem_cons_self ..)
    have hne {d : Char} (hd : isNumberChar d = false) : c ≠ d := ne_of_isNumberChar hc hd
    rw [List.cons_append] at htake hdrop ⊢
    rw [value?, skipBlanks_cons (isBlank_of_isNumberChar hc)]
    simp only [if_neg (hne (d := '"') rfl), if_neg (hne (d := '[') rfl),
      if_neg (hne (d := '\x7b') rfl), if_neg (hne (d := 'n') rfl), if_neg (hne (d := 't') rfl),
      if_neg (hne (d := 'f') rfl), htake, hdrop, hnum, Option.map_some]

/-! ## Values -/

theorem value?_stringChars (s : String) (n : Nat) (rest : List Char) :
    value? (n + 1) (stringChars s ++ rest) = some (.str s, rest) := by
  have hbody := stringBody?_flatMap_escapeChar s.toList rest
  rw [stringChars, List.cons_append, List.append_assoc, List.singleton_append, value?,
    skipBlanks_cons rfl]
  simp only [if_pos, hbody, Option.map_some, String.ofList_toList]

/-- Every number in the value is written as one. -/
inductive Legible : Json → Prop where
  | null : Legible .null
  | bool (b : Bool) : Legible (.bool b)
  | int (n : Int) : Legible (.int n)
  | real {text : List Char} : (∀ c ∈ text, isNumberChar c = true) →
    number? text = some (.real text) → Legible (.real text)
  | str (s : String) : Legible (.str s)
  | arr {items : List Json} : (∀ item ∈ items, Legible item) → Legible (.arr items)
  | obj {fields : List (String × Json)} : (∀ field ∈ fields, Legible field.2) →
    Legible (.obj fields)

/-- The text of a value begins with a character that is neither a blank nor a closing bracket. -/
theorem Legible.exists_chars_eq_cons {j : Json} (h : Legible j) :
    ∃ c cs, j.chars = c :: cs ∧ isBlank c = false ∧ c ≠ ']' := by
  have hnumber {text : List Char} {j : Json} (hall : ∀ c ∈ text, isNumberChar c = true)
      (hnum : number? text = some j) : ∃ c cs, text = c :: cs ∧ isBlank c = false ∧ c ≠ ']' := by
    cases text with
    | nil => cases hnum
    | cons c cs =>
      have hc := hall c (List.mem_cons_self ..)
      exact ⟨c, cs, rfl, isBlank_of_isNumberChar hc, ne_of_isNumberChar hc rfl⟩
  cases h with
  | null => exact ⟨_, _, rfl, rfl, by decide⟩
  | bool b => cases b <;> exact ⟨_, _, rfl, rfl, by decide⟩
  | int n => exact hnumber (fun _ => isNumberChar_of_mem_intChars) (number?_intChars n)
  | real hall hnum => exact hnumber hall hnum
  | str s => exact ⟨_, _, rfl, rfl, by decide⟩
  | @arr items _ => cases items <;> exact ⟨_, _, rfl, rfl, by decide⟩
  | @obj fields _ => cases fields <;> exact ⟨_, _, rfl, rfl, by decide⟩

/-- The reader takes the text of the value off the front of the characters. -/
def ReadsBack (j : Json) : Prop :=
  ∀ {n : Nat} {rest : List Char}, 2 * j.chars.length ≤ n → Ends rest →
    value? n (j.chars ++ rest) = some (j, rest)

section Sequences

variable {n : Nat} {rest : List Char}

theorem ends_cons {c : Char} (h : isNumberChar c = false) (rest : List Char) : Ends (c :: rest) :=
  fun _ hd => Option.some.inj hd ▸ h

section Steps

variable {item : Json} (h : ReadsBack item) (hn : 2 * item.chars.length ≤ n)

include h hn

/-- The item before the closing bracket is the last one. -/
theorem items?_last (rest : List Char) :
    items? (n + 1) (item.chars ++ ']' :: rest) = some ([item], rest) := by
  have hvalue := h hn (ends_cons (c := ']') rfl rest)
  have hclosing := skipBlanks_cons (c := ']') rfl rest
  rw [items?]
  simp only [hvalue, hclosing]

theorem items?_more (rest : List Char) :
    items? (n + 1) (item.chars ++ ',' :: rest) =
      (items? n rest).map fun r => (item :: r.1, r.2) := by
  have hvalue := h hn (ends_cons (c := ',') rfl rest)
  have hcomma := skipBlanks_cons (c := ',') rfl rest
  rw [items?]
  simp only [hvalue, hcomma]

/-- The field before the closing brace is the last one. -/
theorem fields?_last (name : String) (rest : List Char) :
    fields? (n + 1) (stringChars name ++ ':' :: (item.chars ++ '\x7d' :: rest)) =
      some ([(name, item)], rest) := by
  have hname := stringBody?_flatMap_escapeChar name.toList (':' :: (item.chars ++ '\x7d' :: rest))
  have hcolon := skipBlanks_cons (c := ':') rfl (item.chars ++ '\x7d' :: rest)
  have hvalue := h hn (ends_cons (c := '\x7d') rfl rest)
  have hclosing := skipBlanks_cons (c := '\x7d') rfl rest
  rw [stringChars, List.cons_append, List.append_assoc, List.singleton_append, fields?,
    skipBlanks_cons rfl]
  simp only [hname, hcolon, hvalue, hclosing, String.ofList_toList]

theorem fields?_more (name : String) (rest : List Char) :
    fields? (n + 1) (stringChars name ++ ':' :: (item.chars ++ ',' :: rest)) =
      (fields? n rest).map fun r => ((name, item) :: r.1, r.2) := by
  have hname := stringBody?_flatMap_escapeChar name.toList (':' :: (item.chars ++ ',' :: rest))
  have hcolon := skipBlanks_cons (c := ':') rfl (item.chars ++ ',' :: rest)
  have hvalue := h hn (ends_cons (c := ',') rfl rest)
  have hcomma := skipBlanks_cons (c := ',') rfl rest
  rw [stringChars, List.cons_append, List.append_assoc, List.singleton_append, fields?,
    skipBlanks_cons rfl]
  simp only [hname, hcolon, hvalue, hcomma, String.ofList_toList]

end Steps

theorem items?_chars {item : Json} {items : List Json} (h : ∀ j ∈ item :: items, ReadsBack j)
    (hn : 2 * (item.chars.length + (itemsChars items).length) < n) :
    items? n (item.chars ++ (itemsChars items ++ rest)) = some (item :: items, rest) := by
  induction items generalizing item n with
  | nil =>
    obtain ⟨n, rfl⟩ := Nat.exists_eq_succ_of_ne_zero (Nat.ne_zero_of_lt hn)
    exact items?_last (h item (List.mem_cons_self ..)) (by omega) rest
  | cons next items ih =>
    obtain ⟨n, rfl⟩ := Nat.exists_eq_succ_of_ne_zero (Nat.ne_zero_of_lt hn)
    have hitem : ReadsBack item := h item (List.mem_cons_self ..)
    simp only [itemsChars, List.length_cons, List.length_append] at hn
    have hnext := ih (fun j hj => h j (List.mem_cons_of_mem _ hj)) (n := n) (by omega)
    rw [itemsChars, List.cons_append, List.append_assoc, items?_more hitem (by omega), hnext,
      Option.map_some]

theorem fields?_chars {field : String × Json} {fields : List (String × Json)}
    (h : ∀ f ∈ field :: fields, ReadsBack f.2)
    (hn : 2 * (field.2.chars.length + (fieldsChars fields).length) < n) :
    fields? n (stringChars field.1 ++ ':' :: (field.2.chars ++ (fieldsChars fields ++ rest))) =
      some (field :: fields, rest) := by
  induction fields generalizing field n with
  | nil =>
    obtain ⟨n, rfl⟩ := Nat.exists_eq_succ_of_ne_zero (Nat.ne_zero_of_lt hn)
    exact fields?_last (h field (List.mem_cons_self ..)) (by omega) field.1 rest
  | cons next fields ih =>
    obtain ⟨n, rfl⟩ := Nat.exists_eq_succ_of_ne_zero (Nat.ne_zero_of_lt hn)
    have hvalue : ReadsBack field.2 := h field (List.mem_cons_self ..)
    simp only [fieldsChars, List.length_cons, List.length_append] at hn
    have hnext := ih (fun f hf => h f (List.mem_cons_of_mem _ hf)) (n := n) (by omega)
    rw [fieldsChars, List.cons_append, List.append_assoc, List.cons_append, List.append_assoc,
      fields?_more hvalue (by omega), hnext, Option.map_some]

theorem value?_arr {item : Json} {items : List Json} (hlegible : Legible item)
    (h : ∀ j ∈ item :: items, ReadsBack j)
    (hn : 2 * (item.chars.length + (itemsChars items).length) < n) :
    value? (n + 1) ('[' :: (item.chars ++ (itemsChars items ++ rest))) =
      some (.arr (item :: items), rest) := by
  have hitems : items? n (item.chars ++ (itemsChars items ++ rest)) = some (item :: items, rest) :=
    items?_chars h hn
  obtain ⟨c, cs, hcs, hblank, hclosing⟩ := hlegible.exists_chars_eq_cons
  rw [hcs, List.cons_append] at hitems ⊢
  rw [value?, skipBlanks_cons rfl]
  simp only [Char.reduceEq, if_false, if_true, skipBlanks_cons hblank]
  split
  · rename_i heq
    exact absurd (List.cons.inj heq).1 hclosing
  · rw [hitems, Option.map_some]

theorem value?_obj {field : String × Json} {fields : List (String × Json)}
    (h : ∀ f ∈ field :: fields, ReadsBack f.2)
    (hn : 2 * (field.2.chars.length + (fieldsChars fields).length) < n) :
    value? (n + 1)
        ('\x7b' ::
          (stringChars field.1 ++ ':' :: (field.2.chars ++ (fieldsChars fields ++ rest)))) =
      some (.obj (field :: fields), rest) := by
  have hfields : fields? n
      (stringChars field.1 ++ ':' :: (field.2.chars ++ (fieldsChars fields ++ rest))) =
        some (field :: fields, rest) := fields?_chars h hn
  rw [stringChars, List.cons_append] at hfields ⊢
  rw [value?, skipBlanks_cons rfl]
  have hquote := skipBlanks_cons (c := '"') rfl
  simp only [Char.reduceEq, if_false, if_true, hquote]
  split
  · rename_i heq
    exact absurd (List.cons.inj heq).1 (by decide)
  · rw [hfields, Option.map_some]

end Sequences

/-- Reading takes a step, for the text is not empty. -/
theorem Legible.readsBack_of_succ {j : Json} (h : Legible j)
    (hsucc : ∀ {n : Nat} {rest : List Char}, 2 * j.chars.length ≤ n + 1 → Ends rest →
      value? (n + 1) (j.chars ++ rest) = some (j, rest)) : ReadsBack j := by
  intro n rest hn hrest
  obtain ⟨c, cs, hcs, -⟩ := h.exists_chars_eq_cons
  cases n with
  | zero =>
    rw [hcs, List.length_cons] at hn
    omega
  | succ n => exact hsucc hn hrest

/-- The text of a value with legible numbers is read back. -/
theorem Legible.readsBack {j : Json} (h : Legible j) : ReadsBack j := by
  induction h with
  | null => exact Legible.null.readsBack_of_succ fun _ _ => rfl
  | bool b =>
    refine (Legible.bool b).readsBack_of_succ fun _ _ => ?_
    cases b <;> rfl
  | int m =>
    refine (Legible.int m).readsBack_of_succ fun _ hrest => ?_
    exact value?_of_number? (fun _ => isNumberChar_of_mem_intChars) (number?_intChars m) hrest _
  | real hall hnum =>
    refine (Legible.real hall hnum).readsBack_of_succ fun _ hrest => ?_
    exact value?_of_number? hall hnum hrest _
  | str s => exact (Legible.str s).readsBack_of_succ fun _ _ => value?_stringChars s _ _
  | @arr items hitems ih =>
    refine (Legible.arr hitems).readsBack_of_succ fun hn _ => ?_
    cases items with
    | nil => rfl
    | cons item items =>
      rw [chars, List.length_cons, List.length_append] at hn
      rw [chars, List.cons_append, List.append_assoc]
      exact value?_arr (hitems item (List.mem_cons_self ..)) ih (by omega)
  | @obj fields hfields ih =>
    refine (Legible.obj hfields).readsBack_of_succ fun hn _ => ?_
    cases fields with
    | nil => rfl
    | cons field fields =>
      rw [chars, List.length_cons, List.length_append, List.length_cons, List.length_append] at hn
      rw [chars, List.cons_append, List.append_assoc, List.cons_append, List.append_assoc]
      exact value?_obj ih (by omega)

/-- **Written values are read back.** -/
theorem parse?_render {j : Json} (h : Legible j) : parse? j.render = some j := by
  have hnil : Ends [] := fun c hc => absurd hc (by simp)
  have hvalue := h.readsBack (Nat.le_refl _) hnil
  rw [List.append_nil] at hvalue
  simp only [parse?, render, String.toList_ofList, hvalue]
  exact if_pos rfl

end Streaming.Json
