import Mathlib.Algebra.Order.Floor.Div
import Streaming.Proofs.Partition

/-!
# What an even cut gives

An even cut takes blocks of one size, which is the length of the payload divided by the number of
parts and rounded up. Blocks make up the payload and all but the last are full, so that there are as
many as the length divided by the size, rounded up (`length_blocks`), and dividing by the size gives
no more than the number of parts back (`ceilDiv_blockSize_le`). The prefixes that grow by the blocks
end where the blocks end, and no block ends beyond the payload (`upToEnds?_eq`). Both together are
`cuts_are_even_and_complete`.
-/

namespace Streaming.Partition

universe u

variable {α : Type u} {xs : List α} {size parts : Nat}

/-! ## Rounding up -/

theorem divUp_eq_ceilDiv (n parts : Nat) : divUp n parts = n ⌈/⌉ parts := rfl

/-- Rounding up is adding one if there is a remainder. -/
theorem divUp?_eq (hparts : 0 < parts) (n : Nat) : divUp? n parts = some (n ⌈/⌉ parts) := by
  rw [divUp?, if_neg (Nat.ne_of_gt hparts)]
  congr 1
  refine eq_of_forall_ge_iff fun count => ?_
  rw [ceilDiv_le_iff_le_mul hparts]
  split
  · next hmod =>
    have hdvd := Nat.dvd_of_mod_eq_zero hmod
    rw [← Nat.mul_le_mul_left_iff hparts, Nat.mul_div_cancel' hdvd]
  · next hmod =>
    have hne : n ≠ parts * count := by
      rintro rfl
      exact hmod (Nat.mul_mod_right parts count)
    rw [Nat.succ_le_iff, Nat.div_lt_iff_lt_mul hparts, Nat.mul_comm]
    omega

/-- Taking off one block, full or not, leaves one block fewer. -/
theorem ceilDiv_eq_add_one (hsize : 0 < size) {n : Nat} (hn : 0 < n) :
    n ⌈/⌉ size = (n - size) ⌈/⌉ size + 1 := by
  refine eq_of_forall_ge_iff fun count => ?_
  rw [ceilDiv_le_iff_le_mul hsize]
  cases count with
  | zero =>
    rw [Nat.mul_zero]
    omega
  | succ count =>
    rw [Nat.add_le_add_iff_right, ceilDiv_le_iff_le_mul hsize, Nat.mul_succ]
    omega

/-- The size of the blocks that an even cut of `n` elements takes. -/
def blockSize (n parts : Nat) : Nat := max 1 (n ⌈/⌉ parts)

theorem blockSize_pos (n parts : Nat) : 0 < blockSize n parts := Nat.le_max_left ..

theorem blockSize_eq (hparts : 0 < parts) {n : Nat} (hn : 0 < n) :
    blockSize n parts = n ⌈/⌉ parts := by
  rw [blockSize, ceilDiv_eq_add_one hparts hn]
  exact Nat.max_eq_right (Nat.le_add_left ..)

/-- Blocks of this size are no more than there are to be parts. -/
theorem ceilDiv_blockSize_le (hparts : 0 < parts) (n : Nat) :
    n ⌈/⌉ blockSize n parts ≤ parts := by
  rw [ceilDiv_le_iff_le_mul (blockSize_pos n parts)]
  calc
    n ≤ parts * (n ⌈/⌉ parts) := le_smul_ceilDiv hparts
    _ ≤ parts * blockSize n parts := Nat.mul_le_mul_left parts (Nat.le_max_right ..)
    _ = blockSize n parts * parts := Nat.mul_comm ..

/-! ## Blocks -/

/-- A block has a first element, and as many of those behind it as there is room for. -/
theorem exists_of_mem_blocks {piece : List α} (h : piece ∈ blocks size xs) :
    ∃ (x : α) (rest : List α), piece = x :: rest.take (size - 1) := by
  fun_induction blocks size xs with
  | case1 => cases h
  | case2 x xs ih =>
    rcases List.mem_cons.mp h with rfl | hrest
    · exact ⟨x, xs, rfl⟩
    · exact ih hrest

theorem ne_nil_of_mem_blocks {piece : List α} (h : piece ∈ blocks size xs) : piece ≠ [] := by
  obtain ⟨x, rest, rfl⟩ := exists_of_mem_blocks h
  exact List.cons_ne_nil x _

theorem length_le_of_mem_blocks (hsize : 0 < size) {piece : List α} (h : piece ∈ blocks size xs) :
    piece.length ≤ size := by
  obtain ⟨x, rest, rfl⟩ := exists_of_mem_blocks h
  rw [List.length_cons, List.length_take]
  omega

theorem flatten_blocks (size : Nat) (xs : List α) : (blocks size xs).flatten = xs := by
  fun_induction blocks size xs with
  | case1 => rfl
  | case2 x xs ih => rw [List.flatten_cons, ih, List.cons_append, List.take_append_drop]

theorem length_blocks (hsize : 0 < size) (xs : List α) :
    (blocks size xs).length = xs.length ⌈/⌉ size := by
  fun_induction blocks size xs with
  | case1 => exact (zero_ceilDiv size).symm
  | case2 x xs ih =>
    have hlen : (xs.drop (size - 1)).length = (x :: xs).length - size := by
      rw [List.length_drop, List.length_cons]
      omega
    have hpos : 0 < (x :: xs).length := Nat.succ_pos xs.length
    rw [List.length_cons, ih, hlen, ← ceilDiv_eq_add_one hsize hpos]

/-- A block with others behind it is full. -/
theorem length_of_mem_dropLast_blocks (hsize : 0 < size) {piece : List α}
    (h : piece ∈ (blocks size xs).dropLast) : piece.length = size := by
  fun_induction blocks size xs with
  | case1 => cases h
  | case2 x xs ih =>
    by_cases hnil : xs.drop (size - 1) = []
    · rw [hnil, blocks] at h
      cases h
    · have hlt : size - 1 < xs.length := Nat.lt_of_not_le (mt List.drop_eq_nil_of_le hnil)
      have hne : blocks size (xs.drop (size - 1)) ≠ [] := by
        intro hblocks
        rw [← flatten_blocks size (xs.drop (size - 1)), hblocks] at hnil
        exact hnil rfl
      rw [List.dropLast_cons_of_ne_nil hne] at h
      rcases List.mem_cons.mp h with rfl | hrest
      · rw [List.length_cons, List.length_take]
        omega
      · exact ih hrest

/-! ## Prefixes that grow by pieces -/

section Running

variable {done grown : List α} {pieces : List (List α)}

theorem length_running (done : List α) (pieces : List (List α)) :
    (running done pieces).length = pieces.length := by
  induction pieces generalizing done with
  | nil => rfl
  | cons piece pieces ih => exact congrArg (· + 1) (ih _)

theorem getElem?_running (done : List α) {i : Nat} (hi : i < pieces.length) :
    (running done pieces)[i]? = some (done ++ (pieces.take (i + 1)).flatten) := by
  induction pieces generalizing done i with
  | nil => exact absurd hi (Nat.not_lt_zero i)
  | cons piece pieces ih =>
    rw [running, List.take_succ_cons, List.flatten_cons, ← List.append_assoc]
    cases i with
    | zero => rw [List.getElem?_cons_zero, List.take_zero, List.flatten_nil, List.append_nil]
    | succ i => exact ih (done ++ piece) (Nat.lt_of_succ_lt_succ hi)

theorem prefix_of_mem_running (h : grown ∈ running done pieces) :
    grown <+: done ++ pieces.flatten := by
  induction pieces generalizing done with
  | nil => cases h
  | cons piece pieces ih =>
    rw [List.flatten_cons, ← List.append_assoc]
    rcases List.mem_cons.mp h with rfl | hrest
    · exact List.prefix_append ..
    · exact ih hrest

/-- What has grown by a piece that is not empty is longer than what it has grown from. -/
theorem prefix_and_length_lt_of_mem_running (hne : ∀ piece ∈ pieces, piece ≠ [])
    (h : grown ∈ running done pieces) : done <+: grown ∧ done.length < grown.length := by
  induction pieces generalizing done with
  | nil => cases h
  | cons piece pieces ih =>
    obtain ⟨hpiece, hpieces⟩ := List.forall_mem_cons.mp hne
    have hlt : done.length < (done ++ piece).length := by
      rw [List.length_append]
      exact Nat.lt_add_of_pos_right (List.length_pos_iff.mpr hpiece)
    rcases List.mem_cons.mp h with rfl | hrest
    · exact ⟨List.prefix_append .., hlt⟩
    · obtain ⟨hbegins, hlonger⟩ := ih hpieces hrest
      exact ⟨(List.prefix_append ..).trans hbegins, Nat.lt_trans hlt hlonger⟩

theorem pairwise_running (done : List α) (hne : ∀ piece ∈ pieces, piece ≠ []) :
    (running done pieces).Pairwise fun p q => p <+: q ∧ p.length < q.length := by
  induction pieces generalizing done with
  | nil => exact .nil
  | cons piece pieces ih =>
    have hpieces := (List.forall_mem_cons.mp hne).2
    exact .cons (fun _ => prefix_and_length_lt_of_mem_running hpieces) (ih _ hpieces)

theorem getLast?_running (done : List α) (hne : pieces ≠ []) :
    (running done pieces).getLast? = some (done ++ pieces.flatten) := by
  have hpos := List.length_pos_iff.mpr hne
  rw [List.getLast?_eq_getElem?, length_running, getElem?_running done (by omega),
    Nat.sub_add_cancel hpos, List.take_length]

/-- Where what is done and the pieces begin the payload, the pieces end within it. -/
theorem upToEnds?_eq (h : done ++ pieces.flatten <+: xs) :
    upToEnds? done.length xs pieces = some (running done pieces) := by
  induction pieces generalizing done with
  | nil => rfl
  | cons piece pieces ih =>
    rw [List.flatten_cons, ← List.append_assoc] at h
    have hbegins : done ++ piece <+: xs := (List.prefix_append ..).trans h
    have htake : xs.take (done ++ piece).length = done ++ piece :=
      (List.prefix_iff_eq_take.mp hbegins).symm
    rw [upToEnds?, ← List.length_append, between?_eq (Nat.zero_le _) hbegins.length_le,
      List.drop_zero, htake, Option.bind_some, ih h]
    rfl

end Running

/-! ## Even cuts -/

theorem even_eq (hparts : 0 < parts) (xs : List α) :
    even parts xs = .ok (blocks (blockSize xs.length parts) xs) := by
  rw [even, if_neg (Nat.ne_of_gt hparts), divUp_eq_ceilDiv]
  rfl

theorem prefixes_eq (hparts : 0 < parts) (xs : List α) :
    prefixes parts xs = .ok (running [] (blocks (blockSize xs.length parts) xs)) := by
  rw [prefixes, even_eq hparts]
  rfl

theorem even?_eq (hparts : 0 < parts) (xs : List α) :
    even? parts xs = some (blocks (blockSize xs.length parts) xs) := by
  rw [even?, divUp?_eq hparts, Option.bind_some]
  exact if_neg (Nat.ne_of_gt (blockSize_pos ..))

theorem prefixes?_eq (hparts : 0 < parts) (xs : List α) :
    prefixes? parts xs = some (running [] (blocks (blockSize xs.length parts) xs)) := by
  have hwhole : [] ++ (blocks (blockSize xs.length parts) xs).flatten <+: xs := by
    rw [List.nil_append, flatten_blocks]
  rw [prefixes?, even?_eq hparts, Option.bind_some]
  exact upToEnds?_eq hwhole

/-- The payload in no more pieces than there are to be parts, all but the last of the length that an
even division gives, rounded up. -/
structure EvenCut (parts : Nat) (xs : List α) (pieces : List (List α)) : Prop where
  ne_nil : ∀ piece ∈ pieces, piece ≠ []
  flatten_eq : pieces.flatten = xs
  length_le : pieces.length ≤ min parts xs.length
  full : ∀ piece ∈ pieces.dropLast, piece.length = xs.length ⌈/⌉ parts
  bounded : ∀ piece ∈ pieces, piece.length ≤ xs.length ⌈/⌉ parts

/-- The pieces up to each of them, end to end: a chain of ever longer prefixes of the payload, the
last of which is the payload. -/
structure Growth (xs : List α) (pieces grown : List (List α)) : Prop where
  length_eq : grown.length = pieces.length
  getElem?_eq : ∀ i < pieces.length, grown[i]? = some (pieces.take (i + 1)).flatten
  chain : grown.Pairwise fun p q => p <+: q ∧ p.length < q.length
  begins : ∀ p ∈ grown, p <+: xs
  getLast?_eq : xs ≠ [] → grown.getLast? = some xs
  eq_nil : xs = [] → grown = []

theorem evenCut_blocks (hparts : 0 < parts) (xs : List α) :
    EvenCut parts xs (blocks (blockSize xs.length parts) xs) := by
  have hsize := blockSize_pos xs.length parts
  -- Only where there is nothing to cut is the size another one.
  have heq : ∀ piece ∈ blocks (blockSize xs.length parts) xs,
      blockSize xs.length parts = xs.length ⌈/⌉ parts := by
    intro piece hpiece
    cases xs with
    | nil =>
      rw [blocks] at hpiece
      cases hpiece
    | cons x xs => exact blockSize_eq hparts (Nat.succ_pos xs.length)
  refine ⟨fun _ => ne_nil_of_mem_blocks, flatten_blocks .., ?_, ?_, ?_⟩
  · rw [length_blocks hsize, Nat.le_min]
    refine ⟨ceilDiv_blockSize_le hparts xs.length, ?_⟩
    rw [ceilDiv_le_iff_le_mul hsize]
    exact Nat.le_mul_of_pos_left xs.length hsize
  · intro piece hpiece
    rw [← heq piece (List.mem_of_mem_dropLast hpiece)]
    exact length_of_mem_dropLast_blocks hsize hpiece
  · intro piece hpiece
    rw [← heq piece hpiece]
    exact length_le_of_mem_blocks hsize hpiece

theorem EvenCut.growth_running {pieces : List (List α)} (h : EvenCut parts xs pieces) :
    Growth xs pieces (running [] pieces) := by
  refine ⟨length_running .., fun i hi => getElem?_running [] hi, pairwise_running [] h.ne_nil,
    fun p hp => ?_, fun hne => ?_, fun hnil => ?_⟩
  · rw [← h.flatten_eq]
    exact prefix_of_mem_running hp
  · have hpieces : pieces ≠ [] := by
      rintro rfl
      exact hne h.flatten_eq.symm
    rw [getLast?_running [] hpieces, List.nil_append, h.flatten_eq]
  · have hlen := h.length_le
    rw [hnil, List.length_nil, Nat.min_zero] at hlen
    rw [List.eq_nil_of_length_eq_zero (Nat.eq_zero_of_le_zero hlen)]
    rfl

/-- **Cuts are even and complete.** For every number of parts but zero, any payload is cut into
non-empty pieces that make it up. These are no more than there are to be parts, nor more than there
are elements, and all but the last are of the same length, which is that of the payload divided by
the number of parts and rounded up. The prefixes are these pieces up to each of them, end to end,
and the last of them is the payload, unless this is empty. -/
theorem cuts_are_even_and_complete (hparts : 0 < parts) (xs : List α) :
    ∃ pieces grown,
      even parts xs = .ok pieces ∧ even? parts xs = some pieces ∧
      prefixes parts xs = .ok grown ∧ prefixes? parts xs = some grown ∧
      EvenCut parts xs pieces ∧ Growth xs pieces grown := by
  have hcut := evenCut_blocks hparts xs
  exact ⟨_, _, even_eq hparts xs, even?_eq hparts xs, prefixes_eq hparts xs,
    prefixes?_eq hparts xs, hcut, hcut.growth_running⟩

/-- Pieces of two elements are four, where five were asked for, and the last is shorter. -/
theorem cuts_are_even_and_complete_fourOfFive :
    let xs := [1, 2, 3, 4, 5, 6, 7]
    let pieces := [[1, 2], [3, 4], [5, 6], [7]]
    let grown := [[1, 2], [1, 2, 3, 4], [1, 2, 3, 4, 5, 6], xs]
    0 < 5 ∧ even 5 xs = .ok pieces ∧ prefixes? 5 xs = some grown ∧ xs ≠ [] ∧
      EvenCut 5 xs pieces ∧ Growth xs pieces grown := by
  intro xs pieces grown
  have hparts : 0 < 5 := by decide
  have heven : even 5 xs = .ok pieces := by simp [even, divUp, blocks, xs, pieces]
  have hprefixes : prefixes 5 xs = .ok grown := by
    rw [prefixes, heven]
    rfl
  obtain ⟨cut, chain, hcut, -, hchain, hchecked, hevenCut, hgrowth⟩ :=
    cuts_are_even_and_complete hparts xs
  cases hcut.symm.trans heven
  cases hchain.symm.trans hprefixes
  exact ⟨hparts, heven, hchecked, List.cons_ne_nil _ _, hevenCut, hgrowth⟩

end Streaming.Partition
