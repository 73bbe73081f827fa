import Mathlib.Order.Bounds.Basic
import Streaming.Partition.Checked

/-!
# What cutting a payload gives

Whatever the cuts are, each piece is taken between two places of the payload that are in order, so
cutting never fails (`cutFrom?_eq`). The pieces make up the payload, and a piece ends at the
greatest of the cuts up to its own, a cut beyond the end being the end
(`cuts_are_total_and_lossless`).
-/

namespace Streaming.Partition

universe u

variable {α : Type u} {xs : List α} {start : Nat}

/-! ## Bounds -/

theorem clamp_eq {low high : Nat} (h : low ≤ high) (n : Nat) :
    clamp low high n = max low (min n high) := by
  unfold clamp
  omega

theorem le_clamp {low high : Nat} (h : low ≤ high) (n : Nat) : low ≤ clamp low high n := by
  rw [clamp_eq h]
  exact Nat.le_max_left ..

theorem clamp_le (low high n : Nat) : clamp low high n ≤ high := Nat.min_le_left ..

theorem clamp?_eq {low high : Nat} (h : low ≤ high) (n : Nat) :
    clamp? low high n = some (clamp low high n) := by
  rw [clamp?, if_pos h, clamp_eq h]
  congr 1
  split
  · omega
  · split <;> omega

/-! ## The pieces -/

theorem between?_eq {stop : Nat} (hstart : start ≤ stop) (hstop : stop ≤ xs.length) :
    between? start stop xs = some ((xs.take stop).drop start) :=
  if_pos ⟨hstart, hstop⟩

/-- From a place of the payload on, every bound and every place is in order. -/
theorem cutFrom?_eq (h : start ≤ xs.length) (cuts : List Nat) :
    cutFrom? start xs cuts = some (cutFrom start xs cuts) := by
  induction cuts generalizing start with
  | nil =>
    rw [cutFrom?, between?_eq h (Nat.le_refl _), List.take_length]
    rfl
  | cons cut cuts ih =>
    have hstop := clamp_le start xs.length cut
    rw [cutFrom?, clamp?_eq h, Option.bind_some, between?_eq (le_clamp h cut) hstop,
      Option.bind_some, ih hstop]
    rfl

theorem length_cutFrom (start : Nat) (xs : List α) (cuts : List Nat) :
    (cutFrom start xs cuts).length = cuts.length + 1 := by
  induction cuts generalizing start with
  | nil => rfl
  | cons cut cuts ih => exact congrArg (· + 1) (ih _)

theorem flatten_cutFrom (h : start ≤ xs.length) (cuts : List Nat) :
    (cutFrom start xs cuts).flatten = xs.drop start := by
  induction cuts generalizing start with
  | nil => exact List.append_nil _
  | cons cut cuts ih =>
    have hstop := clamp_le start xs.length cut
    have hcut := le_clamp h cut
    rw [cutFrom, List.flatten_cons, ih hstop, ← List.drop_append_of_le_length,
      List.take_append_drop]
    rw [List.length_take, Nat.min_eq_left hstop]
    exact hcut

/-! ## Where the pieces end -/

/-- The place at which the `i`-th piece ends: how many elements there are up to its end. -/
def boundary (pieces : List (List α)) (i : Nat) : Nat := (pieces.take (i + 1)).flatten.length

theorem boundary_cons_zero (piece : List α) (pieces : List (List α)) :
    boundary (piece :: pieces) 0 = piece.length := by
  simp [boundary]

theorem boundary_cons_succ (piece : List α) (pieces : List (List α)) (i : Nat) :
    boundary (piece :: pieces) (i + 1) = piece.length + boundary pieces i := by
  simp [boundary]

/-- The places that the cuts up to the `i`-th name, a cut beyond the end naming the end. -/
def named (cuts : List Nat) (size i : Nat) : Set Nat :=
  {place | ∃ cut ∈ cuts.take (i + 1), place = min cut size}

theorem named_cons_zero (cut : Nat) (cuts : List Nat) (size : Nat) :
    named (cut :: cuts) size 0 = {min cut size} := by
  ext place
  simp [named]

theorem named_cons_succ (cut : Nat) (cuts : List Nat) (size i : Nat) :
    named (cut :: cuts) size (i + 1) = insert (min cut size) (named cuts size i) := by
  ext place
  simp [named]

theorem isGreatest_insert_insert {a b m : Nat} {places : Set Nat}
    (h : IsGreatest (insert (max a b) places) m) : IsGreatest (insert a (insert b places)) m := by
  obtain ⟨hmem, hle⟩ := h
  have hmax := hle (Set.mem_insert ..)
  refine ⟨?_, ?_⟩
  · rcases hmem with rfl | hmem
    · rcases Nat.le_total a b with hab | hab
      · exact .inr (.inl (Nat.max_eq_right hab))
      · exact .inl (Nat.max_eq_left hab)
    · exact .inr (.inr hmem)
  · rintro place (rfl | rfl | hplace)
    · exact Nat.le_trans (Nat.le_max_left ..) hmax
    · exact Nat.le_trans (Nat.le_max_right ..) hmax
    · exact hle (.inr hplace)

/-- A piece ends at the greatest of the places named so far and the one that cutting began at. -/
theorem isGreatest_boundary_cutFrom (h : start ≤ xs.length) {cuts : List Nat} {i : Nat}
    (hi : i < cuts.length) :
    IsGreatest (insert start (named cuts xs.length i))
      (start + boundary (cutFrom start xs cuts) i) := by
  induction cuts generalizing start i with
  | nil => exact absurd hi (Nat.not_lt_zero i)
  | cons cut cuts ih =>
    have hstop := clamp_le start xs.length cut
    have hcut := le_clamp h cut
    have hlen : ((xs.take (clamp start xs.length cut)).drop start).length =
        clamp start xs.length cut - start := by
      rw [List.length_drop, List.length_take, Nat.min_eq_left hstop]
    rw [cutFrom]
    cases i with
    | zero =>
      rw [boundary_cons_zero, hlen, Nat.add_sub_cancel' hcut, clamp_eq h, named_cons_zero]
      exact isGreatest_pair
    | succ i =>
      have hrest := ih hstop (Nat.lt_of_succ_lt_succ hi)
      rw [boundary_cons_succ, hlen, ← Nat.add_assoc, Nat.add_sub_cancel' hcut, named_cons_succ]
      refine isGreatest_insert_insert ?_
      rwa [← clamp_eq h]

/-- **Cuts are total and lossless.** Whatever the cuts are, no bound and no place is out of order,
there is one piece more than there are cuts, and the pieces make up the payload. The `i`-th piece
ends at the greatest of the places that the cuts up to the `i`-th name. -/
theorem cuts_are_total_and_lossless (cuts : List Nat) (xs : List α) :
    cutAt? cuts xs = some (cutAt cuts xs) ∧
      (cutAt cuts xs).length = cuts.length + 1 ∧
      (cutAt cuts xs).flatten = xs ∧
      ∀ i < cuts.length,
        IsGreatest (named cuts xs.length i) (boundary (cutAt cuts xs) i) := by
  have hzero := Nat.zero_le xs.length
  refine ⟨cutFrom?_eq hzero cuts, length_cutFrom 0 xs cuts, flatten_cutFrom hzero cuts, ?_⟩
  intro i hi
  obtain ⟨hmem, hle⟩ := isGreatest_boundary_cutFrom hzero hi
  rw [Nat.zero_add] at hmem hle
  refine ⟨?_, fun place hplace => hle (.inr hplace)⟩
  rcases hmem with hstart | hnamed
  · -- A boundary at the beginning is the place that the first cut names.
    obtain ⟨cut, rest, rfl⟩ := List.exists_cons_of_length_pos (Nat.zero_lt_of_lt hi)
    have hfirst : min cut xs.length ∈ named (cut :: rest) xs.length i :=
      ⟨cut, List.mem_cons_self .., rfl⟩
    have hle := hle (.inr hfirst)
    rw [hstart] at hle
    rwa [cutAt, hstart, ← Nat.eq_zero_of_le_zero hle]
  · exact hnamed

/-- Cuts of which one goes back and one is beyond the end. -/
theorem cuts_are_total_and_lossless_backAndBeyond :
    let cuts := [3, 1, 9, 18446744073709551615]
    let xs := ['a', 'b', 'c', 'd', 'e']
    cutAt cuts xs = [['a', 'b', 'c'], [], ['d', 'e'], [], []] ∧ 1 < cuts.length ∧
      IsGreatest (named cuts xs.length 1) 3 := by
  intro cuts xs
  have hcut : cutAt cuts xs = [['a', 'b', 'c'], [], ['d', 'e'], [], []] := by decide
  have hlt : 1 < cuts.length := by decide
  have hgreatest := (cuts_are_total_and_lossless cuts xs).2.2.2 1 hlt
  rw [hcut] at hgreatest
  exact ⟨hcut, hlt, hgreatest⟩

end Streaming.Partition
