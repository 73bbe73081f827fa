import Streaming.Proofs.Parser.Groups

/-!
# Runs between separators

The runs of a list are its longest pieces without a separator. A run begins at each element that is
no separator and has none such in front of it (`firsts`), and ends before the next separator
(`runs`).

A word parser that is repeated folds the runs one by one, and each time it leaves off at the first
element of the next one (`Parser.groups_word`, `Parser.Rounds.total_word`). Only when it finds
nothing but separators is there a group too many, an empty one (`wordGroups`).
-/

namespace Streaming

universe u v w x

section Runs

variable {α : Type u}

/-- Whether a run begins at the place: the element there is no separator, and the one in front of
it, if there is one, is a separator. -/
def isFirst (sep : α → Bool) (as : List α) (i : Nat) : Bool :=
  (as.drop i).head?.any (!sep ·) && (as.take i).getLast?.all sep

/-- The places at which runs begin. -/
def firsts (sep : α → Bool) (as : List α) : List Nat :=
  (List.range as.length).filter (isFirst sep as)

/-- The longest pieces without a separator, in order. -/
def runs (sep : α → Bool) (as : List α) : List (List α) :=
  (firsts sep as).map fun i => (as.drop i).takeWhile (!sep ·)

/-- The place at which the run with this number begins, or the end of the list if there is no such
run. -/
def runStart (sep : α → Bool) (as : List α) (n : Nat) : Nat := (firsts sep as)[n]?.getD as.length

/-- Whether there is something, but nothing but separators. -/
def isBlank (sep : α → Bool) (as : List α) : Bool := !as.isEmpty && as.all sep

/-- The groups that a word parser makes of a list: its runs, or an empty group if there are only
separators. -/
def wordGroups (sep : α → Bool) (as : List α) : List (List α) :=
  if isBlank sep as then [[]] else runs sep as

/-- How many elements the first run and the separators on both sides of it are. -/
def wordEnd (sep : α → Bool) (as : List α) : Nat :=
  let run := as.dropWhile sep
  (as.takeWhile sep).length + ((run.takeWhile (!sep ·)).length +
    ((run.dropWhile (!sep ·)).takeWhile sep).length)

variable {sep : α → Bool}

/-! ## Where runs begin -/

theorem isFirst_iff {as : List α} {i : Nat} :
    isFirst sep as i = true ↔
      (∃ a ∈ (as.drop i).head?, sep a = false) ∧ ∀ a ∈ (as.take i).getLast?, sep a = true := by
  rw [isFirst, Bool.and_eq_true, Option.any_eq_true, Option.all_eq_true]
  simp only [Bool.not_eq_true', Option.mem_def]

theorem isFirst_append_left {as : List α} {i : Nat} (h : i < as.length) (bs : List α) :
    isFirst sep (as ++ bs) i = isFirst sep as i := by
  have hle := Nat.le_of_lt h
  rw [isFirst, isFirst, List.take_append_of_le_length hle, List.drop_append_of_le_length hle,
    List.drop_eq_getElem_cons h]
  rfl

theorem isFirst_append_right {as bs : List α} {i : Nat} (hi : i < bs.length)
    (h : ∀ a ∈ as.getLast?, ∀ b ∈ bs.head?, sep a = true ∨ sep b = true) :
    isFirst sep (as ++ bs) (as.length + i) = isFirst sep bs i := by
  rw [isFirst, isFirst, List.drop_length_add_append, List.take_length_add_append]
  cases i with
  | zero =>
    -- Only here the element in front is one of `as`.
    rw [List.take_zero, List.append_nil, List.drop_zero, List.getLast?_nil]
    cases hb : bs.head? with
    | none => rfl
    | some b =>
      cases ha : as.getLast? with
      | none => rfl
      | some a => rcases h a ha b hb with hsep | hsep <;> simp [hsep]
  | succ i =>
    have hne : bs.take (i + 1) ≠ [] := by
      rw [Ne, List.take_eq_nil_iff]
      rintro (h | rfl)
      · exact Nat.succ_ne_zero i h
      · exact Nat.not_lt_zero _ hi
    rw [List.getLast?_append, List.getLast?_eq_some_getLast hne]
    rfl

theorem firsts_nil : firsts sep ([] : List α) = [] := rfl

theorem firsts_of_sep {as : List α} (h : ∀ a ∈ as, sep a = true) : firsts sep as = [] := by
  rw [firsts, List.filter_eq_nil_iff]
  intro i _ hfirst
  obtain ⟨⟨a, ha, hnot⟩, -⟩ := isFirst_iff.mp hfirst
  rw [h a (List.mem_of_mem_drop (List.mem_of_head? ha))] at hnot
  cases hnot

theorem firsts_of_not_sep {as : List α} (hne : as ≠ []) (h : ∀ a ∈ as, sep a = false) :
    firsts sep as = [0] := by
  cases as with
  | nil => exact absurd rfl hne
  | cons a as =>
    have hzero : isFirst sep (a :: as) 0 = true :=
      isFirst_iff.mpr ⟨⟨a, rfl, h a (List.mem_cons_self ..)⟩, nofun⟩
    have hlater : ∀ i ∈ (List.range as.length).map Nat.succ,
        ¬ isFirst sep (a :: as) i = true := by
      intro i hi hfirst
      obtain ⟨j, -, rfl⟩ := List.mem_map.mp hi
      obtain ⟨b, hb⟩ : ∃ b, ((a :: as).take j.succ).getLast? = some b :=
        ⟨_, List.getLast?_eq_some_getLast (List.cons_ne_nil a (as.take j))⟩
      have hsep := (isFirst_iff.mp hfirst).2 b hb
      rw [h b (List.mem_of_mem_take (List.mem_of_getLast? hb))] at hsep
      cases hsep
    rw [firsts, List.length_cons, List.range_succ_eq_map, List.filter_cons_of_pos hzero,
      List.filter_eq_nil_iff.mpr hlater]

/-- No run goes over the place between the lists. -/
theorem firsts_append {as bs : List α}
    (h : ∀ a ∈ as.getLast?, ∀ b ∈ bs.head?, sep a = true ∨ sep b = true) :
    firsts sep (as ++ bs) = firsts sep as ++ (firsts sep bs).map (as.length + ·) := by
  have hleft : ∀ i ∈ List.range as.length, isFirst sep (as ++ bs) i = isFirst sep as i := by
    intro i hi
    exact isFirst_append_left (List.mem_range.mp hi) bs
  have hright : ∀ i ∈ List.range bs.length,
      (isFirst sep (as ++ bs) ∘ (as.length + ·)) i = isFirst sep bs i := by
    intro i hi
    exact isFirst_append_right (List.mem_range.mp hi) h
  rw [firsts, List.length_append, List.range_add, List.filter_append, List.filter_map,
    List.filter_congr hleft, List.filter_congr hright]
  rfl

/-- The separators in front of the first run only move the places. -/
theorem firsts_dropWhile (sep : α → Bool) (as : List α) :
    firsts sep as =
      (firsts sep (as.dropWhile sep)).map ((as.takeWhile sep).length + ·) := by
  have hcut : ∀ a ∈ (as.takeWhile sep).getLast?, ∀ b ∈ (as.dropWhile sep).head?,
      sep a = true ∨ sep b = true := by
    intro a ha b _
    exact .inl (List.mem_takeWhile_imp (List.mem_of_getLast? ha))
  have hnone : firsts sep (as.takeWhile sep) = [] :=
    firsts_of_sep fun a ha => List.mem_takeWhile_imp ha
  have happend := firsts_append hcut
  rwa [List.takeWhile_append_dropWhile, hnone, List.nil_append] at happend

/-- A list that begins with a run. -/
theorem firsts_of_head? {as : List α} {a : α} (ha : as.head? = some a) (hsep : sep a = false) :
    firsts sep as = 0 ::
      (firsts sep (as.dropWhile (!sep ·))).map ((as.takeWhile (!sep ·)).length + ·) := by
  have hrun : ∀ b ∈ as.takeWhile (!sep ·), sep b = false := by
    intro b hb
    simpa using List.mem_takeWhile_imp hb
  have hne : as.takeWhile (!sep ·) ≠ [] := by
    obtain ⟨rest, rfl⟩ := List.head?_eq_some_iff.mp ha
    rw [takeWhile_not_cons_of_not_sep rest hsep]
    exact List.cons_ne_nil a _
  have hcut : ∀ a ∈ (as.takeWhile (!sep ·)).getLast?,
      ∀ b ∈ (as.dropWhile (!sep ·)).head?, sep a = true ∨ sep b = true := by
    intro _ _ b hb
    exact .inr (by simpa using not_of_head?_dropWhile hb)
  have happend := firsts_append hcut
  rwa [List.takeWhile_append_dropWhile, firsts_of_not_sep hne hrun] at happend

/-! ## The first run -/

theorem drop_wordEnd (sep : α → Bool) (as : List α) :
    as.drop (wordEnd sep as) = ((as.dropWhile sep).dropWhile (!sep ·)).dropWhile sep := by
  simp only [wordEnd]
  rw [← List.drop_drop, ← List.drop_drop, drop_length_takeWhile, drop_length_takeWhile,
    drop_length_takeWhile]

theorem wordEnd_le (sep : α → Bool) (as : List α) : wordEnd sep as ≤ as.length := by
  have h1 := length_takeWhile_add sep as
  have h2 := length_takeWhile_add (!sep ·) (as.dropWhile sep)
  have h3 := length_takeWhile_add sep ((as.dropWhile sep).dropWhile (!sep ·))
  simp only [wordEnd]
  omega

theorem wordEnd_cons_of_sep {a : α} (h : sep a = true) (as : List α) :
    wordEnd sep (a :: as) = wordEnd sep as + 1 := by
  simp only [wordEnd, List.dropWhile_cons_of_pos h, List.takeWhile_cons_of_pos h, List.length_cons]
  omega

theorem wordEnd_cons_of_not_sep {a : α} (h : sep a = false) (as : List α) :
    wordEnd sep (a :: as) = ((a :: as).takeWhile (!sep ·)).length +
      (((a :: as).dropWhile (!sep ·)).takeWhile sep).length := by
  have hnot := Bool.eq_false_iff.mp h
  rw [wordEnd, List.dropWhile_cons_of_neg hnot, List.takeWhile_cons_of_neg hnot, List.length_nil,
    Nat.zero_add]

theorem wordEnd_pos {as : List α} (hne : as ≠ []) : 0 < wordEnd sep as := by
  cases as with
  | nil => exact absurd rfl hne
  | cons a as =>
    cases hsep : sep a with
    | true =>
      rw [wordEnd_cons_of_sep hsep]
      exact Nat.succ_pos _
    | false =>
      rw [wordEnd_cons_of_not_sep hsep, takeWhile_not_cons_of_not_sep as hsep, List.length_cons]
      omega

/-- Nothing but separators is passed over as a whole. -/
theorem drop_wordEnd_of_sep {as : List α} (h : as.dropWhile sep = []) :
    as.drop (wordEnd sep as) = [] := by
  rw [drop_wordEnd, h]
  rfl

/-- Behind the separators that follow the first run is the second one, or nothing. -/
theorem not_sep_of_head?_drop {as : List α} {a : α}
    (h : (as.drop (wordEnd sep as)).head? = some a) : sep a = false := by
  rw [drop_wordEnd] at h
  exact not_of_head?_dropWhile h

theorem firsts_eq_nil {as : List α} (h : as.dropWhile sep = []) : firsts sep as = [] := by
  rw [firsts_dropWhile, h]
  rfl

theorem firsts_eq_cons {as : List α} (h : as.dropWhile sep ≠ []) :
    firsts sep as = (as.takeWhile sep).length ::
      (firsts sep (as.drop (wordEnd sep as))).map (wordEnd sep as + ·) := by
  obtain ⟨a, ha⟩ : ∃ a, (as.dropWhile sep).head? = some a := ⟨_, List.head?_eq_some_head h⟩
  rw [firsts_dropWhile, firsts_of_head? ha (not_of_head?_dropWhile ha),
    firsts_dropWhile sep ((as.dropWhile sep).dropWhile (!sep ·)), drop_wordEnd]
  simp only [List.map_cons, List.map_map, Nat.add_zero, wordEnd, Function.comp_def, Nat.add_assoc]

theorem runStart_zero {as : List α} (h : ∀ a ∈ as.head?, sep a = false) :
    runStart sep as 0 = 0 := by
  cases as with
  | nil => rfl
  | cons a as =>
    rw [runStart, firsts_of_head? rfl (h a rfl)]
    rfl

theorem runStart_succ (as : List α) (n : Nat) :
    runStart sep as (n + 1) = wordEnd sep as + runStart sep (as.drop (wordEnd sep as)) n := by
  have hle := wordEnd_le sep as
  have hlen : (as.drop (wordEnd sep as)).length = as.length - wordEnd sep as := List.length_drop
  by_cases h : as.dropWhile sep = []
  · have hrest := drop_wordEnd_of_sep h
    rw [hrest] at hlen ⊢
    rw [runStart, runStart, firsts_eq_nil h, firsts_nil, List.getElem?_nil, List.getElem?_nil]
    simp only [Option.getD_none, List.length_nil] at hlen ⊢
    omega
  · rw [runStart, runStart, firsts_eq_cons h, List.getElem?_cons_succ, List.getElem?_map]
    cases (firsts sep (as.drop (wordEnd sep as)))[n]? with
    | none =>
      simp only [Option.map_none, Option.getD_none]
      omega
    | some i => rfl

/-! ## The runs themselves -/

theorem map_firsts_add (as : List α) (k : Nat) :
    ((firsts sep (as.drop k)).map (k + ·)).map (fun i => (as.drop i).takeWhile (!sep ·)) =
      runs sep (as.drop k) := by
  rw [List.map_map, runs]
  apply List.map_congr_left
  intro i _
  rw [Function.comp_apply, List.drop_drop]

theorem runs_eq_nil {as : List α} (h : as.dropWhile sep = []) : runs sep as = [] := by
  rw [runs, firsts_eq_nil h]
  rfl

theorem runs_dropWhile (sep : α → Bool) (as : List α) :
    runs sep (as.dropWhile sep) = runs sep as := by
  rw [← drop_length_takeWhile, ← map_firsts_add, drop_length_takeWhile, ← firsts_dropWhile, runs]

theorem runs_eq_cons {as : List α} (h : as.dropWhile sep ≠ []) :
    runs sep as =
      (as.dropWhile sep).takeWhile (!sep ·) :: runs sep (as.drop (wordEnd sep as)) := by
  rw [runs, firsts_eq_cons h, List.map_cons, map_firsts_add, drop_length_takeWhile]

/-- No run is empty. -/
theorem ne_nil_of_mem_runs {as run : List α} (h : run ∈ runs sep as) : run ≠ [] := by
  obtain ⟨i, hi, rfl⟩ := List.mem_map.mp h
  obtain ⟨⟨a, ha, hnot⟩, -⟩ := isFirst_iff.mp (List.mem_filter.mp hi).2
  obtain ⟨rest, hrest⟩ := List.head?_eq_some_iff.mp ha
  rw [hrest, takeWhile_not_cons_of_not_sep rest hnot]
  exact List.cons_ne_nil a _

theorem not_sep_of_mem_runs {as run : List α} (h : run ∈ runs sep as) {a : α} (ha : a ∈ run) :
    sep a = false := by
  obtain ⟨i, -, rfl⟩ := List.mem_map.mp h
  simpa using List.mem_takeWhile_imp ha

/-! ## The runs of lists one behind the other -/

theorem runs_append {as bs : List α}
    (h : ∀ a ∈ as.getLast?, ∀ b ∈ bs.head?, sep a = true ∨ sep b = true) :
    runs sep (as ++ bs) = runs sep as ++ runs sep bs := by
  have hleft : ∀ i ∈ firsts sep as,
      ((as ++ bs).drop i).takeWhile (!sep ·) = (as.drop i).takeWhile (!sep ·) := by
    intro i hi
    have hlt : i < as.length := List.mem_range.mp (List.mem_filter.mp hi).1
    rw [List.drop_append_of_le_length (Nat.le_of_lt hlt), List.takeWhile_append]
    split
    · -- The run goes on to the end of `as`, so `bs` has a separator in front.
      rename_i hall
      have hrun : (as.drop i).takeWhile (!sep ·) = as.drop i :=
        (List.takeWhile_prefix _).eq_of_length hall
      have hstop : bs.takeWhile (!sep ·) = [] := by
        cases bs with
        | nil => rfl
        | cons b bs =>
          have hne : as.drop i ≠ [] := by
            rw [Ne, List.drop_eq_nil_iff]
            exact Nat.not_le.mpr hlt
          have hlast : as.getLast? = some ((as.drop i).getLast hne) := by
            rw [List.getLast_drop, List.getLast?_eq_some_getLast]
          have hmem : (as.drop i).getLast hne ∈ (as.drop i).takeWhile (!sep ·) := by
            rw [hrun]
            exact List.getLast_mem hne
          have hnot : sep ((as.drop i).getLast hne) = false := by
            simpa using List.mem_takeWhile_imp hmem
          apply takeWhile_not_cons_of_sep
          rcases h _ hlast b rfl with hsep | hsep
          · rw [hnot] at hsep
            cases hsep
          · exact hsep
      rw [hstop, hrun, List.append_nil]
    · rfl
  have hright : ((firsts sep bs).map (as.length + ·)).map
      (fun i => ((as ++ bs).drop i).takeWhile (!sep ·)) = runs sep bs := by
    have hruns := @map_firsts_add _ sep (as ++ bs) as.length
    rwa [List.drop_left] at hruns
  rw [runs, firsts_append h, List.map_append, List.map_congr_left hleft, hright, ← runs]

theorem runs_cons_of_sep {x : α} (hx : sep x = true) (as : List α) :
    runs sep (x :: as) = runs sep as := by
  rw [← runs_dropWhile, List.dropWhile_cons_of_pos hx, runs_dropWhile]

/-- A separator belongs to no run, and none goes over it. -/
theorem runs_append_of_sep {x : α} (hx : sep x = true) (as bs : List α) :
    runs sep (as ++ x :: bs) = runs sep as ++ runs sep bs := by
  have hcut : ∀ a ∈ as.getLast?, ∀ b ∈ (x :: bs).head?, sep a = true ∨ sep b = true := by
    intro a _ b hb
    cases hb
    exact .inr hx
  rw [runs_append hcut, runs_cons_of_sep hx]

theorem runs_of_not_sep {as : List α} (hne : as ≠ []) (h : ∀ a ∈ as, sep a = false) :
    runs sep as = [as] := by
  have hall : as.takeWhile (!sep ·) = as := by
    rw [List.takeWhile_eq_self_iff]
    simpa using h
  rw [runs, firsts_of_not_sep hne h, List.map_singleton, List.drop_zero, hall]

/-- Runs with a separator behind each of them are the runs of the whole. -/
theorem runs_joined {x : α} (hx : sep x = true) {groups : List (List α)}
    (h : ∀ group ∈ groups, group ≠ [] ∧ ∀ a ∈ group, sep a = false) :
    runs sep (groups.flatMap (· ++ [x])) = groups := by
  induction groups with
  | nil => rfl
  | cons group groups ih =>
    obtain ⟨⟨hne, hgroup⟩, hgroups⟩ := List.forall_mem_cons.mp h
    rw [List.flatMap_cons, List.append_assoc, List.singleton_append, runs_append_of_sep hx,
      runs_of_not_sep hne hgroup, ih hgroups, List.singleton_append]

/-! ## The groups of a word parser -/

theorem isBlank_iff {as : List α} : isBlank sep as = true ↔ as ≠ [] ∧ as.dropWhile sep = [] := by
  rw [isBlank, Bool.and_eq_true, List.all_eq_true, List.dropWhile_eq_nil_iff]
  simp

theorem wordGroups_of_head? {as : List α} (h : ∀ a ∈ as.head?, sep a = false) :
    wordGroups sep as = runs sep as := by
  apply if_neg
  rw [isBlank_iff]
  rintro ⟨hne, hsep⟩
  obtain ⟨a, ha⟩ : ∃ a, as.head? = some a := ⟨_, List.head?_eq_some_head hne⟩
  have hmem := List.dropWhile_eq_nil_iff.mp hsep a (List.mem_of_head? ha)
  rw [h a ha] at hmem
  cases hmem

theorem wordGroups_eq_cons {as : List α} (hne : as ≠ []) :
    wordGroups sep as =
      (as.dropWhile sep).takeWhile (!sep ·) :: runs sep (as.drop (wordEnd sep as)) := by
  by_cases h : as.dropWhile sep = []
  · rw [wordGroups, if_pos (isBlank_iff.mpr ⟨hne, h⟩), drop_wordEnd_of_sep h, h]
    rfl
  · rw [wordGroups, if_neg (fun hblank => h (isBlank_iff.mp hblank).2), runs_eq_cons h]

example : runs (· == 0) [0, 3, 4, 0, 0, 5] = [[3, 4], [5]] ∧
    wordGroups (· == 0) [0, 0] = [[]] ∧ runStart (· == 0) [0, 3, 4, 0, 0, 5] 1 = 5 := by decide

end Runs

namespace Parser

variable {α : Type u} {σ : Type v} {β : Type w} (sep : α → Bool) (f : Fold α σ β)

/-! ## A run of a word parser -/

theorem roundFrom_word_behind (s : σ) (as : List α) :
    (word sep f).roundFrom (.behind, s) as =
      .ok ⟨.ok (f.finish s), (as.takeWhile sep).length⟩ := by
  induction as with
  | nil => rfl
  | cons a as ih =>
    cases hsep : sep a with
    | true =>
      have hstep : (word sep f).step (.behind, s) a = .ok (.skip 0 (.behind, s)) := by
        simp only [word, hsep]
      rw [roundFrom_of_goes_on _ as hstep rfl rfl, Step.state, ih, List.takeWhile_cons_of_pos hsep]
      rfl
    | false =>
      have hstep : (word sep f).step (.behind, s) a = .ok (.stop 1 (.behind, s)) := by
        simp only [word, hsep]
      rw [roundFrom_of_stop _ as hstep rfl, List.takeWhile_cons_of_neg (Bool.eq_false_iff.mp hsep)]
      rfl

theorem roundFrom_word_inside (s : σ) (as : List α) :
    (word sep f).roundFrom (.inside, s) as =
      (f.stepAll s (as.takeWhile (!sep ·))).map fun t =>
        ⟨.ok (f.finish t),
          (as.takeWhile (!sep ·)).length + ((as.dropWhile (!sep ·)).takeWhile sep).length⟩ := by
  induction as generalizing s with
  | nil => rfl
  | cons a as ih =>
    cases hsep : sep a with
    | true =>
      have hstep : (word sep f).step (.inside, s) a = .ok (.skip 0 (.behind, s)) := by
        simp only [word, hsep]
      rw [roundFrom_of_goes_on _ as hstep rfl rfl, Step.state, roundFrom_word_behind,
        takeWhile_not_cons_of_sep as hsep, dropWhile_not_cons_of_sep as hsep,
        List.takeWhile_cons_of_pos hsep, List.length_nil, Nat.zero_add]
      rfl
    | false =>
      rw [takeWhile_not_cons_of_not_sep as hsep, dropWhile_not_cons_of_not_sep as hsep,
        List.length_cons, Nat.add_right_comm]
      have hstep : (word sep f).step (.inside, s) a =
          f.thenStep s a fun t => .yield 0 (.inside, t) := by
        simp only [word, hsep]
      rw [roundFrom_of_thenStep hstep]
      cases hs : f.step s a with
      | error e =>
        rw [Fold.stepAll_cons_of_error hs]
        rfl
      | ok t =>
        rw [Except.bind, ih, map_map_except, Fold.stepAll_cons_of_ok hs]
        rfl

theorem roundFrom_word_before (s : σ) (as : List α) :
    (word sep f).roundFrom (.before, s) as =
      (f.stepAll s ((as.dropWhile sep).takeWhile (!sep ·))).map fun t =>
        ⟨.ok (f.finish t), wordEnd sep as⟩ := by
  induction as with
  | nil => rfl
  | cons a as ih =>
    cases hsep : sep a with
    | true =>
      have hstep : (word sep f).step (.before, s) a = .ok (.skip 0 (.before, s)) := by
        simp only [word, hsep]
      rw [roundFrom_of_goes_on _ as hstep rfl rfl, Step.state, ih, map_map_except,
        List.dropWhile_cons_of_pos hsep, wordEnd_cons_of_sep hsep]
      rfl
    | false =>
      -- The first element of a word is taken like any other.
      have hstep : (word sep f).step (.before, s) a = (word sep f).step (.inside, s) a := by
        simp only [word, hsep]
      have hround := roundFrom_word_inside sep f s (a :: as)
      rw [roundFrom, offerOnce, ← hstep, ← offerOnce, ← roundFrom] at hround
      rw [hround, wordEnd_cons_of_not_sep hsep,
        List.dropWhile_cons_of_neg (Bool.eq_false_iff.mp hsep)]

/-- A run passes over the separators around the first run of the elements, and folds it. -/
theorem round_word (as : List α) :
    (word sep f).round as =
      (f.run ((as.dropWhile sep).takeWhile (!sep ·))).map fun b => ⟨.ok b, wordEnd sep as⟩ := by
  rw [Fold.run, map_map_except]
  exact roundFrom_word_before sep f f.start as

/-- Repeating the parser folds the groups of a list. -/
theorem groups_word : Groups (word sep f) f (wordGroups sep) where
  nil := rfl
  cons := by
    intro as hne
    refine ⟨(as.dropWhile sep).takeWhile (!sep ·), wordEnd sep as, wordEnd_pos hne,
      wordEnd_le sep as, ?_, round_word sep f as⟩
    -- What is left does not begin with a separator, so its groups are its runs.
    rw [wordGroups_eq_cons hne, wordGroups_of_head? fun a => not_sep_of_head?_drop]

variable {sep f} {as : List α}

/-- Each round leaves off where the next run of the list begins. -/
theorem Rounds.total_word {rounds : List (Round β)} {fault : Option Fault}
    (h : Rounds (word sep f) as rounds fault) {n : Nat} (hpos : 0 < n) (hle : n ≤ rounds.length) :
    Round.total (rounds.take n) = runStart sep as n := by
  induction h generalizing n with
  | nil => exact absurd hpos (Nat.not_lt.mpr hle)
  | broken hne h => exact absurd hpos (Nat.not_lt.mpr hle)
  | last hne h hstop => exact absurd ((groups_word sep f).of_round_ok hne h).1 hstop
  | cons hne h hgo hrest ih =>
    rw [round_word] at h
    obtain ⟨b, -, rfl⟩ := exists_of_map_eq_ok h
    cases n with
    | zero => exact absurd rfl (Nat.ne_of_gt hpos)
    | succ n =>
      rw [List.take_succ_cons, Round.total, runStart_succ]
      by_cases hn : n = 0
      · rw [hn, runStart_zero fun a => not_sep_of_head?_drop]
        rfl
      · rw [ih (Nat.pos_of_ne_zero hn) (Nat.le_of_succ_le_succ hle)]

/-! ## Repeating a word parser on a source -/

variable {ρ : Type x} [FinitePull ρ α] (sep f)

/-- The answers are the groups of what the source reads, folded one by one. -/
theorem collect_word (s : Source ρ α) :
    ∃ t, (Repetition.start (word sep f) s).collect =
      some ((f.runAll (wordGroups sep (Pull.elements s))).1.map .ok, t) ∧
      t.fault = (f.runAll (wordGroups sep (Pull.elements s))).2 :=
  (groups_word sep f).collect (word_forward sep f) s

/-- Collecting lists, it leaves the source at the beginning of the next run. -/
theorem answers_word_toList (s : Source ρ α) (n : Nat) :
    ∃ t, (Repetition.start (word sep .toList) s).answers n =
        some (Pull.served n ((wordGroups sep (Pull.elements s)).map .ok), t) ∧ t.fault = none ∧
      (0 < n → n ≤ (wordGroups sep (Pull.elements s)).length →
        t.source.offset = s.offset + runStart sep (Pull.elements s) n) := by
  obtain ⟨rounds, h, hcourse, hanswers⟩ :=
    (groups_word sep Fold.toList).exists_course (word_forward sep Fold.toList) s
  obtain ⟨t, ht, hstands⟩ := hcourse.answers n
  have hlen := congrArg List.length hanswers
  rw [List.length_map, List.length_map] at hlen
  rw [hanswers] at ht
  refine ⟨t, ht, hstands.fault_eq, ?_⟩
  intro hpos hle
  rw [hstands.offset_eq, h.total_word hpos (hlen.symm ▸ hle)]

end Parser

end Streaming
