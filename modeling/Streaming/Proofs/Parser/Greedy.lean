import Mathlib.Data.List.Chain
import Streaming.Proofs.Parser.Groups

/-!
# Greedy runs

A list is cut greedily into runs: a run begins with the first element that is left, and goes on as
long as the elements compare with this one (`greedy`). Nothing is asked of the comparison, so the
elements of a run need not compare with each other, or with themselves.

What the runs satisfy determines them: they make up the list, each is judged against its own first
element alone, and none could have been longer (`GreedyRuns`, `greedyRuns_iff`). Repeating a parser
of an element and those that compare with it gives these runs (`Parser.groups_runOf`).
-/

namespace Streaming

universe u v w

variable {α : Type u}

section Runs

/-- The groups are the list, cut where an element does not compare with the first of its group. -/
structure GreedyRuns (same : α → α → Bool) (as : List α) (groups : List (List α)) : Prop where
  ne_nil : ∀ group ∈ groups, group ≠ []
  flatten_eq : groups.flatten = as
  compares : ∀ group ∈ groups, ∀ first ∈ group.head?, ∀ a ∈ group.tail, same first a = true
  /-- The first element of the next group would not have gone with the first of this one. -/
  parts : groups.IsChain fun group others =>
    ∀ first ∈ group.head?, ∀ a ∈ others.head?, same first a = false

/-- The longest runs, taken one after the other. -/
def greedy (same : α → α → Bool) : List α → List (List α)
  | [] => []
  | a :: as => (a :: as.takeWhile (same a)) :: greedy same (as.dropWhile (same a))
termination_by as => as.length
decreasing_by exact Nat.lt_succ_of_le (List.dropWhile_sublist _).length_le

variable {same : α → α → Bool} {a : α} {as : List α} {groups : List (List α)}

theorem greedyRuns_nil_iff : GreedyRuns same [] groups ↔ groups = [] := by
  constructor
  · intro h
    cases groups with
    | nil => rfl
    | cons group rest =>
      have hnil := (List.append_eq_nil_iff.mp h.flatten_eq).1
      exact absurd hnil (h.ne_nil group (List.mem_cons_self ..))
  · rintro rfl
    exact ⟨nofun, rfl, nofun, .nil⟩

/-- What follows the first group begins with an element that the group could not take. -/
theorem GreedyRuns.not_same {front : List α} (h : GreedyRuns same as ((a :: front) :: groups)) :
    ∀ b ∈ groups.flatten.head?, same a b = false := by
  cases groups with
  | nil => exact nofun
  | cons next rest =>
    intro b hb
    have hnext : next ≠ [] := h.ne_nil next (List.mem_cons_of_mem _ (List.mem_cons_self ..))
    rw [List.flatten_cons, List.head?_append_of_ne_nil _ hnext] at hb
    exact (List.isChain_cons.mp h.parts).1 next rfl a rfl b hb

/-- The first group is as long as it can be, and the others are the groups of what is left. -/
theorem greedyRuns_cons_iff :
    GreedyRuns same (a :: as) groups ↔
      ∃ rest, groups = (a :: as.takeWhile (same a)) :: rest ∧
        GreedyRuns same (as.dropWhile (same a)) rest := by
  constructor
  · intro h
    cases groups with
    | nil => cases h.flatten_eq
    | cons group rest =>
      have hmem : group ∈ group :: rest := List.mem_cons_self ..
      cases group with
      | nil => exact absurd rfl (h.ne_nil [] hmem)
      | cons b front =>
        have hflatten := h.flatten_eq
        rw [List.flatten_cons, List.cons_append] at hflatten
        cases hflatten
        have hfront : ∀ b ∈ front, same a b = true := h.compares _ hmem a rfl
        obtain ⟨htake, hdrop⟩ := takeWhile_append_of_head? hfront h.not_same
        rw [htake, hdrop]
        refine ⟨rest, rfl, ?_, rfl, ?_, (List.isChain_cons.mp h.parts).2⟩
        · exact fun g hg => h.ne_nil g (List.mem_cons_of_mem _ hg)
        · exact fun g hg => h.compares g (List.mem_cons_of_mem _ hg)
  · rintro ⟨rest, rfl, h⟩
    refine ⟨?_, ?_, ?_, ?_⟩
    · exact List.forall_mem_cons.mpr ⟨List.cons_ne_nil a _, h.ne_nil⟩
    · rw [List.flatten_cons, h.flatten_eq, List.cons_append, List.takeWhile_append_dropWhile]
    · refine List.forall_mem_cons.mpr ⟨?_, h.compares⟩
      intro first hfirst b hb
      cases hfirst
      exact List.mem_takeWhile_imp hb
    · refine List.isChain_cons.mpr ⟨?_, h.parts⟩
      intro next hnext first hfirst b hb
      cases hfirst
      -- The next group begins with what the test stopped at.
      obtain ⟨others, rfl⟩ := List.head?_eq_some_iff.mp hnext
      have hhead := congrArg List.head? h.flatten_eq
      rw [List.flatten_cons, List.head?_append_of_ne_nil _ (h.ne_nil next (List.mem_cons_self ..)),
        hb] at hhead
      exact not_of_head?_dropWhile hhead.symm

/-- The conditions determine the groups. -/
theorem greedyRuns_iff : GreedyRuns same as groups ↔ groups = greedy same as := by
  fun_induction greedy same as generalizing groups with
  | case1 => exact greedyRuns_nil_iff
  | case2 a as ih =>
    rw [greedyRuns_cons_iff]
    constructor
    · rintro ⟨rest, rfl, h⟩
      rw [ih.mp h]
    · intro h
      exact ⟨_, h, ih.mpr rfl⟩

end Runs

namespace Parser

variable {σ : Type v} {β : Type w} (same : α → α → Bool) (f : Fold α σ β)

theorem scans_runOf (first : α) :
    Scans (runOf same f) f (same first) 1 (some first, ·) where
  passes s a h := by
    simp only [runOf, h, if_true]
  fails s a h := by
    simp only [runOf, h]
    rfl
  finish s := rfl

/-- Repeating the parser folds the greedy runs of a list. -/
theorem groups_runOf : Groups (runOf same f) f (greedy same) := by
  refine groups_of_opened ?_ ?_ rfl (fun _ => rfl) (scans_runOf same f)
  · rw [greedy]
  · intro a as
    rw [greedy]

end Parser

/-- **Runs are greedy.** Whatever the comparison is, repeating a parser of an element and those that
compare with it collects groups that satisfy the conditions of greedy runs of what the source reads,
and no others do. -/
theorem runs_are_greedy {ρ : Type v} [FinitePull ρ α] (same : α → α → Bool) (s : Source ρ α) :
    ∃ groups t,
      (Repetition.start (.runOf same .toList) s).collect = some (groups.map .ok, t) ∧
      t.fault = none ∧
      ∀ others, GreedyRuns same (Pull.elements s) others ↔ others = groups := by
  obtain ⟨t, hcollect, hfault, -⟩ := (Parser.groups_runOf same Fold.toList).collect_toList
    (Parser.runOf_forward Fold.toList same) s
  exact ⟨_, t, hcollect, hfault, fun others => greedyRuns_iff⟩

/-- The third element compares with the first of its run, though not with the one in front of it. -/
theorem runs_are_greedy_atLeastFirst :
    let s : Source (Supply Nat) Nat := .ofInput (.ofList [2, 5, 3, 1, 1, 0])
    GreedyRuns Nat.ble (Pull.elements s) [[2, 5, 3], [1, 1], [0]] ∧
      ∃ t, (Repetition.start (.runOf Nat.ble .toList) s).collect =
        some ([[2, 5, 3], [1, 1], [0]].map .ok, t) := by
  intro s
  have hs : Pull.elements s = [2, 5, 3, 1, 1, 0] := Source.elements_ofInput_ofList _
  obtain ⟨groups, t, hcollect, -, hgroups⟩ := runs_are_greedy Nat.ble s
  have hruns : GreedyRuns Nat.ble (Pull.elements s) [[2, 5, 3], [1, 1], [0]] := by
    rw [hs]
    exact ⟨by decide, rfl, by decide, by decide⟩
  rw [← (hgroups _).mp hruns] at hcollect
  exact ⟨hruns, t, hcollect⟩

end Streaming
