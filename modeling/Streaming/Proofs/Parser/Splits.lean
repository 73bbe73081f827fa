import Streaming.Proofs.Parser.Groups

/-!
# Splitting at separators

The separators of a list end the groups between them: a group may be empty, but none is opened by
a separator at the end (`splits`). So a list can be put together again from its groups if all its
separators are alike, but for the separator at its end (`joined_splits`, `splits_joined`).

Repeating a parser of the elements before a separator gives the groups of what its source reads,
each of them folded (`Parser.groups_upTo`).
-/

namespace Streaming

universe u v w x

section Splits

variable {α : Type u}

/-- Puts elements in front of the first group, or makes a group of them if there is none. -/
def glue (as : List α) : List (List α) → List (List α)
  | [] => [as]
  | g :: gs => (as ++ g) :: gs

/-- The groups that the separators end, and the elements behind the last separator, if any. -/
def splits (sep : α → Bool) : List α → List (List α)
  | [] => []
  | a :: as => if sep a then [] :: splits sep as else glue [a] (splits sep as)

theorem glue_glue (as bs : List α) (gs : List (List α)) :
    glue as (glue bs gs) = glue (as ++ bs) gs := by
  cases gs with
  | nil => rfl
  | cons g gs => simp only [glue, List.append_assoc]

variable {sep : α → Bool}

theorem splits_cons_of_sep {a : α} (h : sep a = true) (as : List α) :
    splits sep (a :: as) = [] :: splits sep as := by
  rw [splits, if_pos h]

theorem splits_cons_of_not_sep {a : α} (h : sep a = false) (as : List α) :
    splits sep (a :: as) = glue [a] (splits sep as) := by
  rw [splits, if_neg (Bool.eq_false_iff.mp h)]

/-- Elements among which is no separator belong to one group. -/
theorem splits_append {as : List α} (hne : as ≠ []) (h : ∀ a ∈ as, sep a = false) (bs : List α) :
    splits sep (as ++ bs) = glue as (splits sep bs) := by
  induction as with
  | nil => exact absurd rfl hne
  | cons a as ih =>
    have ha := h a (List.mem_cons_self ..)
    rw [List.cons_append, splits_cons_of_not_sep ha]
    cases as with
    | nil => rfl
    | cons b as =>
      rw [ih (List.cons_ne_nil b as) fun c hc => h c (List.mem_cons_of_mem _ hc), glue_glue]
      rfl

/-- The first group is the elements before the first separator. -/
theorem splits_eq_cons {as : List α} (hne : as ≠ []) :
    splits sep as = as.takeWhile (!sep ·) :: splits sep (as.dropWhile (!sep ·)).tail := by
  induction as with
  | nil => exact absurd rfl hne
  | cons a as ih =>
    cases hsep : sep a with
    | true =>
      rw [splits_cons_of_sep hsep, takeWhile_not_cons_of_sep as hsep,
        dropWhile_not_cons_of_sep as hsep, List.tail_cons]
    | false =>
      rw [splits_cons_of_not_sep hsep, takeWhile_not_cons_of_not_sep as hsep,
        dropWhile_not_cons_of_not_sep as hsep]
      cases as with
      | nil => rfl
      | cons b as =>
        rw [ih (List.cons_ne_nil b as)]
        rfl

theorem splits_ne_nil {as : List α} (hne : as ≠ []) : splits sep as ≠ [] := by
  rw [splits_eq_cons hne]
  exact List.cons_ne_nil _ _

/-! ## Groups put together again -/

section Joined

variable {x : α}

theorem splits_append_of_sep (hx : sep x = true) (as bs : List α) :
    splits sep (as ++ x :: bs) = splits sep (as ++ [x]) ++ splits sep bs := by
  induction as with
  | nil =>
    rw [List.nil_append, List.nil_append, splits_cons_of_sep hx, splits_cons_of_sep hx]
    rfl
  | cons a as ih =>
    rw [List.cons_append, List.cons_append]
    cases hsep : sep a with
    | true => rw [splits_cons_of_sep hsep, splits_cons_of_sep hsep, ih, List.cons_append]
    | false =>
      rw [splits_cons_of_not_sep hsep, splits_cons_of_not_sep hsep, ih]
      have hne : splits sep (as ++ [x]) ≠ [] := splits_ne_nil (by simp)
      cases hgroups : splits sep (as ++ [x]) with
      | nil => exact absurd hgroups hne
      | cons group groups => rfl

/-- A separator behind each group ends it. -/
theorem splits_joined (hx : sep x = true) {groups : List (List α)}
    (h : ∀ group ∈ groups, ∀ a ∈ group, sep a = false) :
    splits sep (groups.flatMap (· ++ [x])) = groups := by
  induction groups with
  | nil => rfl
  | cons group groups ih =>
    obtain ⟨hgroup, hgroups⟩ := List.forall_mem_cons.mp h
    have hfront : ∀ a ∈ group, (!sep a) = true := by
      intro a ha
      rw [hgroup a ha]
      rfl
    have hbehind : ∀ a ∈ (x :: groups.flatMap (· ++ [x])).head?, (!sep a) = false := by
      intro a ha
      cases ha
      rw [hx]
      rfl
    obtain ⟨htake, hdrop⟩ := takeWhile_append_of_head? (p := (!sep ·)) hfront hbehind
    rw [List.flatMap_cons, List.append_assoc, List.singleton_append, splits_eq_cons (by simp),
      htake, hdrop, List.tail_cons, ih hgroups]

/-- Ending each group joins what was put in front of the first one to it. -/
theorem flatMap_glue (as : List α) {groups : List (List α)} (hne : groups ≠ []) :
    (glue as groups).flatMap (· ++ [x]) = as ++ groups.flatMap (· ++ [x]) := by
  cases groups with
  | nil => exact absurd rfl hne
  | cons group groups => simp only [glue, List.flatMap_cons, List.append_assoc]

/-- Groups of the same separator give the list back, a separator ending its last group. -/
theorem joined_splits [DecidableEq α] (hx : ∀ a, sep a = true ↔ a = x) (as : List α) :
    (splits sep as).flatMap (· ++ [x]) =
      if as = [] ∨ as.getLast? = some x then as else as ++ [x] := by
  induction as with
  | nil => rfl
  | cons a as ih =>
    cases as with
    | nil =>
      cases hsep : sep a with
      | true =>
        obtain rfl := (hx a).mp hsep
        have hlast : [a].getLast? = some a := rfl
        rw [splits_cons_of_sep hsep, if_pos (Or.inr hlast)]
        rfl
      | false =>
        have hne : a ≠ x := by
          intro hax
          rw [(hx a).mpr hax] at hsep
          cases hsep
        rw [splits_cons_of_not_sep hsep, if_neg (by simp [hne])]
        rfl
    | cons b bs =>
      -- Whether `a` is a separator does not matter: it stands in front of what follows.
      have hfront : (splits sep (a :: b :: bs)).flatMap (· ++ [x]) =
          a :: (splits sep (b :: bs)).flatMap (· ++ [x]) := by
        cases hsep : sep a with
        | true =>
          obtain rfl := (hx a).mp hsep
          rw [splits_cons_of_sep hsep]
          rfl
        | false =>
          rw [splits_cons_of_not_sep hsep,
            flatMap_glue [a] (splits_ne_nil (List.cons_ne_nil b bs))]
          rfl
      rw [hfront, ih, List.getLast?_cons_cons]
      simp only [reduceCtorEq, false_or]
      split
      · rfl
      · rfl

end Joined

end Splits

namespace Parser

variable {α : Type u} {σ : Type w} {β : Type x} (sep : α → Bool) (f : Fold α σ β)

theorem scans_upTo : Scans (upTo sep f) f (!sep ·) 0 id where
  passes s a h := by
    simp only [Bool.not_eq_true'] at h
    simp only [upTo, h, id]
    rfl
  fails s a h := by
    simp only [Bool.not_eq_false'] at h
    simp only [upTo, h, id, if_true]
  finish s := rfl

/-- Repeating the parser folds the groups of a list. -/
theorem groups_upTo : Groups (upTo sep f) f (splits sep) where
  nil := rfl
  cons := by
    intro as hne
    have hpos := List.length_pos_iff.mpr hne
    refine ⟨as.takeWhile (!sep ·), min ((as.takeWhile (!sep ·)).length + 1) as.length, by omega,
      Nat.min_le_right .., ?_, ?_⟩
    · rw [splits_eq_cons hne, drop_takeWhile_succ]
    · rw [Fold.run, map_map_except]
      exact (scans_upTo sep f).roundFrom f.start as

variable {ρ : Type v} [FinitePull ρ α]

/-- Repeating the parser on a source collects the groups of what the source reads. -/
theorem collect_upTo_toList (s : Source ρ α) :
    ∃ t, (Repetition.start (upTo sep .toList) s).collect =
      some ((splits sep (Pull.elements s)).map .ok, t) ∧ t.fault = none := by
  obtain ⟨t, hcollect, hfault, -⟩ :=
    (groups_upTo sep Fold.toList).collect_toList (upTo_forward sep Fold.toList) s
  exact ⟨t, hcollect, hfault⟩

end Parser

end Streaming
