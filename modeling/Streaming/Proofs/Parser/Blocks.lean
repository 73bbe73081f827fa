import Streaming.Partition
import Streaming.Proofs.Parser.Runs
import Streaming.Proofs.Parser.Splits

/-!
# Groups cut into blocks

A parser of the elements before a separator that takes no more than so many of them, repeated, cuts
each group into blocks of that many elements (`Parser.groups_upToAtMost`). Behind a last
block that is full it has not seen the end of the group: if a separator is there, one more run finds
it, and has an empty group for its result (`pieces`). If no element may be taken at all, the first
run hands back the one that it was offered, and it is the last.
-/

namespace Streaming

universe u v

variable {α : Type u}

/-- Puts an element in front of the first group, or makes an open group of it if there is none. -/
def prepend (a : α) : List (List α × Option α) → List (List α × Option α)
  | [] => [([a], none)]
  | (group, closing) :: rest => (a :: group, closing) :: rest

/-- The groups of a list, each with the separator that ends it, if one does. -/
def sections (sep : α → Bool) : List α → List (List α × Option α)
  | [] => []
  | a :: as => if sep a then ([], some a) :: sections sep as else prepend a (sections sep as)

/-- The blocks of a group, and an empty one behind them if the last is full and a separator ends the
group. -/
def pieces (max : Nat) (group : List α) (ended : Bool) : List (List α) :=
  Partition.blocks max group ++ if ended && group.length % max == 0 then [[]] else []

/-- The blocks of all groups. -/
def piecesOf (max : Nat) (groups : List (List α × Option α)) : List (List α) :=
  (groups.map fun group => pieces max group.1 group.2.isSome).flatten

/-! ## Groups and the separators that end them -/

section Sections

variable {sep : α → Bool}

theorem sections_cons_of_sep {a : α} (h : sep a = true) (as : List α) :
    sections sep (a :: as) = ([], some a) :: sections sep as := by
  rw [sections, if_pos h]

theorem sections_cons_of_not_sep {a : α} (h : sep a = false) (as : List α) :
    sections sep (a :: as) = prepend a (sections sep as) := by
  rw [sections, if_neg (Bool.eq_false_iff.mp h)]

theorem map_fst_sections (sep : α → Bool) (as : List α) :
    (sections sep as).map Prod.fst = splits sep as := by
  induction as with
  | nil => rfl
  | cons a as ih =>
    cases hsep : sep a with
    | true => rw [sections_cons_of_sep hsep, splits_cons_of_sep hsep, List.map_cons, ih]
    | false =>
      rw [sections_cons_of_not_sep hsep, splits_cons_of_not_sep hsep, ← ih]
      cases sections sep as <;> rfl

/-- The groups and the separators behind them are the list. -/
theorem flatten_sections (sep : α → Bool) (as : List α) :
    ((sections sep as).map fun group => group.1 ++ group.2.toList).flatten = as := by
  induction as with
  | nil => rfl
  | cons a as ih =>
    cases hsep : sep a with
    | true =>
      rw [sections_cons_of_sep hsep, List.map_cons, List.flatten_cons, ih]
      rfl
    | false =>
      rw [sections_cons_of_not_sep hsep]
      refine Eq.trans ?_ (congrArg (a :: ·) ih)
      cases sections sep as <;> rfl

theorem sep_of_mem_sections {as : List α} {group : List α × Option α}
    (h : group ∈ sections sep as) :
    (∀ a ∈ group.1, sep a = false) ∧ ∀ a ∈ group.2, sep a = true := by
  induction as generalizing group with
  | nil => cases h
  | cons a as ih =>
    cases hsep : sep a with
    | true =>
      rw [sections_cons_of_sep hsep] at h
      rcases List.mem_cons.mp h with rfl | hrest
      · refine ⟨nofun, ?_⟩
        intro b hb
        cases hb
        exact hsep
      · exact ih hrest
    | false =>
      rw [sections_cons_of_not_sep hsep] at h
      cases hs : sections sep as with
      | nil =>
        rw [hs] at h
        cases List.mem_singleton.mp h
        exact ⟨by simpa using hsep, nofun⟩
      | cons first rest =>
        rw [hs] at h ih
        rcases List.mem_cons.mp h with rfl | hrest
        · obtain ⟨hnot, hclosing⟩ := ih (List.mem_cons_self ..)
          exact ⟨List.forall_mem_cons.mpr ⟨hsep, hnot⟩, hclosing⟩
        · exact ih (List.mem_cons_of_mem _ hrest)

/-- The first group is the elements before the first separator. -/
theorem sections_eq_cons {as : List α} (hne : as ≠ []) :
    sections sep as =
      (as.takeWhile (!sep ·), (as.dropWhile (!sep ·)).head?) ::
        sections sep (as.dropWhile (!sep ·)).tail := by
  induction as with
  | nil => exact absurd rfl hne
  | cons a as ih =>
    cases hsep : sep a with
    | true =>
      rw [sections_cons_of_sep hsep, takeWhile_not_cons_of_sep as hsep,
        dropWhile_not_cons_of_sep as hsep]
      rfl
    | false =>
      rw [sections_cons_of_not_sep hsep, takeWhile_not_cons_of_not_sep as hsep,
        dropWhile_not_cons_of_not_sep as hsep]
      cases as with
      | nil => rfl
      | cons b as =>
        rw [ih (List.cons_ne_nil b as)]
        rfl

end Sections

/-! ## Blocks -/

section Pieces

variable {sep : α → Bool} {max : Nat}

theorem blocks_of_ne_nil (hmax : 0 < max) {group : List α} (hne : group ≠ []) :
    Partition.blocks max group = group.take max :: Partition.blocks max (group.drop max) := by
  cases group with
  | nil => exact absurd rfl hne
  | cons a as =>
    obtain ⟨size, rfl⟩ := Nat.exists_eq_add_one_of_ne_zero (Nat.ne_of_gt hmax)
    rw [Partition.blocks]
    rfl

theorem pieces_nil (max : Nat) (ended : Bool) :
    pieces max ([] : List α) ended = if ended then [[]] else [] := by
  rw [pieces, Partition.blocks]
  cases ended <;> simp

/-- A full block is followed by the pieces of what is left of the group. -/
theorem pieces_of_le (hmax : 0 < max) {group : List α} (hle : max ≤ group.length) (ended : Bool) :
    pieces max group ended = group.take max :: pieces max (group.drop max) ended := by
  have hne : group ≠ [] := List.length_pos_iff.mp (Nat.lt_of_lt_of_le hmax hle)
  have hmod : (group.drop max).length % max = group.length % max := by
    rw [List.length_drop]
    exact (Nat.mod_eq_sub_mod hle).symm
  rw [pieces, pieces, blocks_of_ne_nil hmax hne, hmod, List.cons_append]

/-- A group that is no full block is one piece. -/
theorem pieces_of_lt {group : List α} (hlt : group.length < max) {ended : Bool}
    (h : group = [] → ended = true) : pieces max group ended = [group] := by
  by_cases hne : group = []
  · subst hne
    rw [pieces_nil, h rfl]
    rfl
  · have hmax : 0 < max := Nat.zero_lt_of_lt hlt
    have hmod : ¬ group.length % max = 0 := by
      rw [Nat.mod_eq_of_lt hlt]
      exact mt List.length_eq_zero_iff.mp hne
    rw [pieces, blocks_of_ne_nil hmax hne, List.take_of_length_le (Nat.le_of_lt hlt),
      List.drop_eq_nil_of_le (Nat.le_of_lt hlt), Partition.blocks]
    simp [hmod]

theorem piecesOf_sections (max : Nat) (as : List α) :
    piecesOf max (sections sep as) =
      pieces max (as.takeWhile (!sep ·)) (as.dropWhile (!sep ·)).head?.isSome ++
        piecesOf max (sections sep (as.dropWhile (!sep ·)).tail) := by
  by_cases hne : as = []
  · subst hne
    rw [List.takeWhile_nil, pieces_nil]
    rfl
  · rw [sections_eq_cons hne, piecesOf, List.map_cons, List.flatten_cons]
    rfl

theorem takeWhile_drop {p : α → Bool} {as : List α} {n : Nat} (h : n ≤ (as.takeWhile p).length) :
    (as.drop n).takeWhile p = (as.takeWhile p).drop n ∧
      (as.drop n).dropWhile p = as.dropWhile p := by
  induction n generalizing as with
  | zero => exact ⟨rfl, rfl⟩
  | succ n ih =>
    cases as with
    | nil => exact absurd h (Nat.not_succ_le_zero n)
    | cons a as =>
      by_cases ha : p a = true
      · rw [List.takeWhile_cons_of_pos ha] at h ⊢
        rw [List.dropWhile_cons_of_pos ha]
        exact ih (Nat.le_of_succ_le_succ h)
      · rw [List.takeWhile_cons_of_neg ha] at h
        exact absurd h (Nat.not_succ_le_zero n)

/-- How many elements a run consumes that may take so many. -/
def reach (sep : α → Bool) (room : Nat) (as : List α) : Nat :=
  min room (min ((as.takeWhile (!sep ·)).length + 1) as.length)

theorem reach_le (sep : α → Bool) (room : Nat) (as : List α) : reach sep room as ≤ as.length :=
  Nat.le_trans (Nat.min_le_right ..) (Nat.min_le_right ..)

theorem reach_pos {room : Nat} (h : 0 < room) {as : List α} (hne : as ≠ []) :
    0 < reach sep room as := by
  have hpos := List.length_pos_iff.mpr hne
  rw [reach]
  omega

theorem reach_zero (sep : α → Bool) (as : List α) : reach sep 0 as = 0 := Nat.zero_min _

theorem reach_cons_of_sep {a : α} (h : sep a = true) (room : Nat) (as : List α) :
    reach sep (room + 1) (a :: as) = 1 := by
  rw [reach, takeWhile_not_cons_of_sep as h, List.length_cons, List.length_nil]
  omega

theorem reach_cons_of_not_sep {a : α} (h : sep a = false) (room : Nat) (as : List α) :
    reach sep (room + 1) (a :: as) = reach sep room as + 1 := by
  rw [reach, reach, takeWhile_not_cons_of_not_sep as h, List.length_cons, List.length_cons]
  omega

/-- If the group is at least as long as a block, the run ends with the block. -/
theorem drop_reach_of_le {as : List α} (h : max ≤ (as.takeWhile (!sep ·)).length) :
    as.drop (reach sep max as) = as.drop max := by
  have hlen := length_takeWhile_add (!sep ·) as
  have hreach : reach sep max as = max := by
    rw [reach]
    omega
  rw [hreach]

/-- If it is shorter, the run ends behind the separator. -/
theorem drop_reach_of_lt {as : List α} (h : (as.takeWhile (!sep ·)).length < max) :
    as.drop (reach sep max as) = (as.dropWhile (!sep ·)).tail := by
  rw [← drop_length_takeWhile, ← List.drop_one, List.drop_drop, List.drop_eq_drop_iff, reach]
  omega

/-- The first piece is what the first run takes, and the others are those of the rest. -/
theorem piecesOf_eq_cons (hmax : 0 < max) {as : List α} (hne : as ≠ []) :
    piecesOf max (sections sep as) =
      (as.takeWhile (!sep ·)).take max ::
        piecesOf max (sections sep (as.drop (reach sep max as))) := by
  rw [piecesOf_sections]
  by_cases hle : max ≤ (as.takeWhile (!sep ·)).length
  · -- The rest begins with what is left of the group, and if that is nothing, with its end.
    obtain ⟨htake, hdrop⟩ := takeWhile_drop hle
    rw [drop_reach_of_le hle, piecesOf_sections max (as.drop max), htake, hdrop,
      pieces_of_le hmax hle, List.cons_append]
  · -- The run takes the whole group, and the separator behind it if there is one.
    have hlt := Nat.lt_of_not_le hle
    have hended : as.takeWhile (!sep ·) = [] → (as.dropWhile (!sep ·)).head?.isSome = true := by
      intro hnil
      have happend : as.takeWhile (!sep ·) ++ as.dropWhile (!sep ·) = as :=
        List.takeWhile_append_dropWhile
      rw [hnil, List.nil_append] at happend
      rwa [happend, List.isSome_head?]
    rw [drop_reach_of_lt hlt, pieces_of_lt hlt hended, List.take_of_length_le (Nat.le_of_lt hlt)]
    rfl

end Pieces

namespace Parser

variable {sep : α → Bool} {max : Nat}

/-! ## A run -/

theorem roundFrom_upToAtMost {taken : Nat} (h : taken < max) (kept as : List α) :
    (upToAtMost sep max .toList).roundFrom (taken, kept) as =
      .ok ⟨.ok (kept ++ (as.takeWhile (!sep ·)).take (max - taken)),
        reach sep (max - taken) as⟩ := by
  induction as generalizing taken kept with
  | nil =>
    rw [roundFrom_nil _ rfl, List.takeWhile_nil, List.take_nil, List.append_nil, reach,
      List.length_nil, Nat.min_zero, Nat.min_zero]
    rfl
  | cons a as ih =>
    obtain ⟨room, hroom⟩ : ∃ room, max - taken = room + 1 := ⟨max - taken - 1, by omega⟩
    have hopen : ¬ max ≤ taken := Nat.not_le.mpr h
    rw [hroom]
    cases hsep : sep a with
    | true =>
      have hstep : (upToAtMost sep max .toList).step (taken, kept) a =
          .ok (.stop 0 (taken, kept)) := by
        simp only [upToAtMost, if_neg hopen, hsep, if_true]
      rw [roundFrom_of_stop _ as hstep rfl, takeWhile_not_cons_of_sep as hsep, List.take_nil,
        List.append_nil, reach_cons_of_sep hsep]
      rfl
    | false =>
      have hstep : (upToAtMost sep max .toList).step (taken, kept) a =
          .ok (if taken + 1 = max then .stop 0 (taken + 1, kept ++ [a])
            else .yield 0 (taken + 1, kept ++ [a])) := by
        simp only [upToAtMost, if_neg hopen, hsep]
        rfl
      rw [takeWhile_not_cons_of_not_sep as hsep, List.take_succ_cons, reach_cons_of_not_sep hsep]
      by_cases hfull : taken + 1 = max
      · obtain rfl : room = 0 := by omega
        rw [if_pos hfull] at hstep
        rw [roundFrom_of_stop _ as hstep rfl, reach_zero]
        rfl
      · obtain rfl : room = max - (taken + 1) := by omega
        rw [if_neg hfull] at hstep
        rw [roundFrom_of_goes_on _ as hstep rfl rfl, Step.state, ih (by omega), List.append_assoc]
        rfl

/-- A run takes a block, or what there is of it before a separator. -/
theorem round_upToAtMost (hmax : 0 < max) (as : List α) :
    (upToAtMost sep max .toList).round as =
      .ok ⟨.ok ((as.takeWhile (!sep ·)).take max), reach sep max as⟩ :=
  roundFrom_upToAtMost hmax [] as

/-- One that may not take anything hands back the element that it is offered. -/
theorem round_upToAtMost_zero {as : List α} (hne : as ≠ []) :
    (upToAtMost sep 0 .toList).round as = .ok ⟨.ok [], 0⟩ := by
  cases as with
  | nil => exact absurd rfl hne
  | cons a as =>
    have hstep : (upToAtMost sep 0 .toList).step (0, []) a = .ok (.stop 1 (0, [])) := rfl
    exact roundFrom_of_stop _ as hstep rfl

/-- Repeating the parser collects the pieces of the groups of a list. -/
theorem groups_upToAtMost (hmax : 0 < max) :
    Groups (upToAtMost sep max .toList) .toList fun as => piecesOf max (sections sep as) where
  nil := rfl
  cons := by
    intro as hne
    refine ⟨(as.takeWhile (!sep ·)).take max, reach sep max as, reach_pos hmax hne,
      reach_le sep max as, piecesOf_eq_cons hmax hne, ?_⟩
    rw [round_upToAtMost hmax, Fold.run_toList]
    rfl

/-! ## Repeating the parser on a source -/

variable {ρ : Type v} [FinitePull ρ α]

theorem collect_upToAtMost (hmax : 0 < max) (s : Source ρ α) :
    ∃ t, (Repetition.start (upToAtMost sep max .toList) s).collect =
        some ((piecesOf max (sections sep (Pull.elements s))).map .ok, t) ∧ t.fault = none ∧
      t.source.offset = s.offset + (Pull.elements s).length ∧ Pull.elements t.source = [] :=
  (groups_upToAtMost hmax).collect_toList (upToAtMost_forward Fold.toList sep max) s

theorem answers_upToAtMost_zero {s : Source ρ α} (hleft : Pull.elements s ≠ []) (n : Nat) :
    ∃ t, (Repetition.start (upToAtMost sep 0 .toList) s).answers n =
        some (Pull.served n [.ok []], t) ∧ t.fault = none ∧
      t.source.offset = s.offset ∧ Pull.elements t.source = Pull.elements s := by
  have hrounds : Rounds (upToAtMost sep 0 .toList) (Pull.elements s) [⟨.ok [], 0⟩] none := by
    refine .last hleft (round_upToAtMost_zero hleft) ?_
    rintro ⟨-, hpos⟩
    exact Nat.lt_irrefl 0 hpos
  obtain ⟨t, hanswers, hstands⟩ :=
    (hrounds.course (upToAtMost_forward Fold.toList sep 0)).answers n
  have htotal : Round.total (([⟨.ok [], 0⟩] : List (Round (List α))).take n) = 0 := by
    cases n with
    | zero => rfl
    | succ n =>
      rw [List.take_succ_cons, List.take_nil]
      rfl
  refine ⟨t, hanswers, hstands.fault_eq, ?_, ?_⟩
  · rw [hstands.offset_eq, htotal, Nat.add_zero]
  · rw [hstands.elements_eq, htotal, List.drop_zero]

end Parser

/-- **A bound cuts groups into blocks.** The groups that a parser of the elements before a separator
collects make up, with the separators that end them, what the source reads. The same parser with a
bound collects for each group its blocks, and behind a last block that is full an empty group if a
separator ends the group; it leaves nothing to be read. With the bound zero it collects one empty
group, consumes nothing and ends. -/
theorem bound_cuts_groups {ρ : Type v} [FinitePull ρ α] (sep : α → Bool) (s : Source ρ α) :
    (∃ t, (Repetition.start (.upTo sep .toList) s).collect =
      some ((sections sep (Pull.elements s)).map fun group => .ok group.1, t) ∧ t.fault = none) ∧
    ((sections sep (Pull.elements s)).map fun group => group.1 ++ group.2.toList).flatten =
      Pull.elements s ∧
    (∀ group ∈ sections sep (Pull.elements s),
      (∀ a ∈ group.1, sep a = false) ∧ ∀ a ∈ group.2, sep a = true) ∧
    (∀ max, 0 < max → ∃ t, (Repetition.start (.upToAtMost sep max .toList) s).collect =
        some ((piecesOf max (sections sep (Pull.elements s))).map .ok, t) ∧ t.fault = none ∧
      t.source.offset = s.offset + (Pull.elements s).length ∧ Pull.elements t.source = []) ∧
    (Pull.elements s ≠ [] → ∀ n,
      ∃ t, (Repetition.start (.upToAtMost sep 0 .toList) s).answers n =
          some (Pull.served n [.ok []], t) ∧ t.fault = none ∧
        t.source.offset = s.offset ∧ Pull.elements t.source = Pull.elements s) := by
  refine ⟨?_, flatten_sections sep _, fun group => sep_of_mem_sections, ?_, ?_⟩
  · obtain ⟨t, hcollect, hfault⟩ := Parser.collect_upTo_toList sep s
    rw [← map_fst_sections, List.map_map] at hcollect
    exact ⟨t, hcollect, hfault⟩
  · intro max hmax
    exact Parser.collect_upToAtMost hmax s
  · intro hleft n
    exact Parser.answers_upToAtMost_zero hleft n

/-- A full block that a separator ends is followed by an empty group, and one at the end of the
input is not. -/
theorem bound_cuts_groups_twoFull :
    let s : Source (Supply Nat) Nat := .ofInput (.ofList [1, 2, 0, 3, 0, 4, 5])
    (∃ t, (Repetition.start (.upToAtMost (· == 0) 2 .toList) s).collect =
        some ([[1, 2], [], [3], [4, 5]].map .ok, t) ∧ t.source.offset = 7) ∧
      Pull.elements s ≠ [] ∧
      ∃ t, (Repetition.start (.upToAtMost (· == 0) 0 .toList) s).answers 2 =
          some ([some (.ok []), none], t) ∧ t.source.offset = 0 := by
  intro s
  have hs : Pull.elements s = [1, 2, 0, 3, 0, 4, 5] :=
    (Source.elements_ofInput _).trans (Supply.elements_ofList _)
  have hne : Pull.elements s ≠ [] := by
    rw [hs]
    exact List.cons_ne_nil _ _
  obtain ⟨-, -, -, hbound, hzero⟩ := bound_cuts_groups (· == 0) s
  obtain ⟨t, hcollect, -, hoff, -⟩ := hbound 2 (by decide)
  obtain ⟨u, hanswers, -, hstay, -⟩ := hzero hne 2
  have hpieces : piecesOf 2 (sections (· == 0) [1, 2, 0, 3, 0, 4, 5]) =
      [[1, 2], [], [3], [4, 5]] := by
    simp [piecesOf, sections, prepend, pieces, Partition.blocks]
  rw [hs, hpieces] at hcollect
  rw [hs] at hoff
  exact ⟨⟨t, hcollect, hoff⟩, hne, u, hanswers, hstay⟩

end Streaming
