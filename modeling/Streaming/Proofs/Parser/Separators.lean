import Mathlib.Data.List.SplitBy
import Streaming.Proofs.Parser.Splits

/-!
# Separators that stay in their groups

A list is cut behind each of its separators (`Terminated`) or in front of each of them (`Headed`),
and nowhere else. Both say where two neighbours are parted, so that there is one way to do it
(`terminated_iff`), and the one is the other read backwards (`headed_iff`).

Repeating a parser of the elements up to a separator gives the groups of the first kind, and
repeating one that leaves the separator to the next group those of the second
(`Parser.groups_through`, `Parser.groups_headed`). A parser that drops the separator keeps in step
with the first of these parsers (`Parser.through_tracks_upTo`).
-/

namespace Streaming

universe u v w x

variable {α : Type u}

section Cuts

/-- The groups are the list, cut behind each separator. -/
structure Terminated (sep : α → Bool) (as : List α) (groups : List (List α)) : Prop where
  ne_nil : ∀ group ∈ groups, group ≠ []
  flatten_eq : groups.flatten = as
  /-- Only the last group may lack its separator. -/
  ends : ∀ group ∈ groups.dropLast, ∃ a ∈ group.getLast?, sep a = true
  within : ∀ group ∈ groups, ∀ a ∈ group.dropLast, sep a = false

/-- The groups are the list, cut in front of each separator. -/
structure Headed (sep : α → Bool) (as : List α) (groups : List (List α)) : Prop where
  ne_nil : ∀ group ∈ groups, group ≠ []
  flatten_eq : groups.flatten = as
  /-- Only the first group may lack its separator. -/
  begins : ∀ group ∈ groups.tail, ∃ a ∈ group.head?, sep a = true
  within : ∀ group ∈ groups, ∀ a ∈ group.tail, sep a = false

/-- The groups read backwards. -/
def mirrored (groups : List (List α)) : List (List α) := (groups.map List.reverse).reverse

/-- The elements before the first separator, and the separator if there is one. -/
def upThrough (sep : α → Bool) (as : List α) : List α :=
  as.takeWhile (!sep ·) ++ (as.dropWhile (!sep ·)).take 1

/-- The group without the separator at its end, if there is one. -/
def unterminated (sep : α → Bool) (group : List α) : List α :=
  if group.getLast?.any sep then group.dropLast else group

/-! ## Neighbours -/

theorem isChain_right_iff {p : α → Prop} {as : List α} :
    as.IsChain (fun _ b => p b) ↔ ∀ b ∈ as.tail, p b := by
  induction as with
  | nil => simp
  | cons a as ih =>
    rw [List.isChain_cons, ih, List.tail_cons]
    cases as with
    | nil => simp
    | cons b as => simp

theorem isChain_left_iff {p : α → Prop} {as : List α} :
    as.IsChain (fun a _ => p a) ↔ ∀ a ∈ as.dropLast, p a := by
  rw [← List.isChain_reverse, isChain_right_iff, List.tail_reverse]
  simp only [List.mem_reverse]

/-- A list begins with a piece in which all neighbours are related, if the piece is not related to
what follows it. -/
theorem splitBy_eq_cons (r : α → α → Bool) {front : List α} (rest : List α) (hne : front ≠ [])
    (hchain : front.IsChain fun a b => r a b = true)
    (hcut : ∀ a ∈ front.getLast?, ∀ b ∈ rest.head?, r a b = false) :
    (front ++ rest).splitBy r = front :: rest.splitBy r := by
  rw [List.splitBy_append hcut, List.splitBy_of_isChain hne hchain]
  rfl

variable {sep : α → Bool} {as : List α} {groups : List (List α)}

/-- To cut behind separators is to part two neighbours if the first is a separator. -/
theorem terminated_iff :
    Terminated sep as groups ↔ groups = as.splitBy fun a _ => !sep a := by
  have hwithin : ∀ group : List α, (group.IsChain fun a _ => (!sep a) = true) ↔
      ∀ a ∈ group.dropLast, sep a = false := by
    intro group
    rw [isChain_left_iff]
    simp only [Bool.not_eq_true']
  have hends (hne : [] ∉ groups) :
      (groups.IsChain fun g h => ∃ hg hh, (fun a _ => !sep a) (g.getLast hg) (h.head hh) = false) ↔
        ∀ g ∈ groups.dropLast, ∃ a ∈ g.getLast?, sep a = true := by
    rw [← isChain_left_iff]
    apply List.IsChain.iff_of_mem_imp
    intro g h hg hh
    have hg' : g ≠ [] := fun hnil => hne (hnil ▸ hg)
    have hh' : h ≠ [] := fun hnil => hne (hnil ▸ hh)
    simp [List.getLast?_eq_some_getLast hg', hg', hh']
  rw [eq_comm, List.splitBy_eq_iff]
  constructor
  · intro h
    have hne : [] ∉ groups := fun hmem => h.ne_nil [] hmem rfl
    exact ⟨h.flatten_eq.symm, hne, fun g hg => (hwithin g).mpr (h.within g hg),
      (hends hne).mpr h.ends⟩
  · rintro ⟨hflatten, hne, hchain, hcut⟩
    exact ⟨fun g hg hnil => hne (hnil ▸ hg), hflatten.symm, (hends hne).mp hcut,
      fun g hg => (hwithin g).mp (hchain g hg)⟩

/-- To cut in front of separators is to cut behind them, going backwards. -/
theorem headed_iff : Headed sep as groups ↔ Terminated sep as.reverse (mirrored groups) := by
  have hmem : ∀ {p : List α → Prop}, (∀ g ∈ mirrored groups, p g) ↔ ∀ g ∈ groups, p g.reverse := by
    intro p
    simp only [mirrored, List.mem_reverse, List.forall_mem_map]
  have htail : ∀ {p : List α → Prop}, (∀ g ∈ (mirrored groups).dropLast, p g) ↔
      ∀ g ∈ groups.tail, p g.reverse := by
    intro p
    simp only [mirrored, List.dropLast_reverse, ← List.map_tail, List.mem_reverse,
      List.forall_mem_map]
  have hflatten : (mirrored groups).flatten = as.reverse ↔ groups.flatten = as := by
    rw [mirrored, ← List.reverse_flatten, List.reverse_inj]
  constructor
  · intro h
    refine ⟨hmem.mpr ?_, hflatten.mpr h.flatten_eq, htail.mpr ?_, hmem.mpr ?_⟩
    · simpa using h.ne_nil
    · simpa using h.begins
    · simpa using h.within
  · intro h
    refine ⟨?_, hflatten.mp h.flatten_eq, ?_, ?_⟩
    · simpa using hmem.mp h.ne_nil
    · simpa using htail.mp h.ends
    · simpa using hmem.mp h.within

/-- Backwards, the neighbours that are parted are the same. -/
theorem splitBy_reverse (r : α → α → Bool) (as : List α) :
    as.reverse.splitBy r = mirrored (as.splitBy fun a b => r b a) := by
  rw [List.splitBy_eq_iff]
  refine ⟨?_, ?_, ?_, ?_⟩
  · rw [mirrored, ← List.reverse_flatten, List.flatten_splitBy]
  · simp [mirrored]
  · intro group hgroup
    rw [mirrored, List.mem_reverse] at hgroup
    obtain ⟨g, hg, rfl⟩ := List.mem_map.mp hgroup
    rw [List.isChain_reverse]
    exact List.isChain_of_mem_splitBy hg
  · rw [mirrored, List.isChain_reverse, List.isChain_map]
    refine (List.isChain_getLast_head_splitBy _ as).imp ?_
    rintro g h ⟨hg, hh, hparted⟩
    refine ⟨by simpa using hh, by simpa using hg, ?_⟩
    rwa [List.getLast_reverse, List.head_reverse]

/-- So to cut in front of separators is to part two neighbours if the second is one. -/
theorem headed_splitBy (sep : α → Bool) (as : List α) :
    Headed sep as (as.splitBy fun _ b => !sep b) :=
  headed_iff.mpr (terminated_iff.mpr (splitBy_reverse _ as).symm)

/-! ## The first group -/

theorem upThrough_append (sep : α → Bool) (as : List α) :
    upThrough sep as ++ (as.dropWhile (!sep ·)).tail = as := by
  rw [upThrough, List.append_assoc, ← List.drop_one, List.take_append_drop,
    List.takeWhile_append_dropWhile]

theorem upThrough_ne_nil (sep : α → Bool) {as : List α} (hne : as ≠ []) :
    upThrough sep as ≠ [] := by
  cases as with
  | nil => exact absurd rfl hne
  | cons a as =>
    rw [upThrough]
    cases hsep : sep a with
    | true =>
      rw [takeWhile_not_cons_of_sep as hsep, dropWhile_not_cons_of_sep as hsep, List.nil_append,
        List.take_succ_cons]
      exact List.cons_ne_nil a _
    | false =>
      rw [takeWhile_not_cons_of_not_sep as hsep, List.cons_append]
      exact List.cons_ne_nil a _

theorem splitBy_eq_upThrough {as : List α} (hne : as ≠ []) :
    as.splitBy (fun a _ => !sep a) =
      upThrough sep as :: (as.dropWhile (!sep ·)).tail.splitBy fun a _ => !sep a := by
  have hbefore : ∀ a ∈ as.takeWhile (!sep ·), (!sep a) = true :=
    fun a ha => List.mem_takeWhile_imp (p := (!sep ·)) ha
  have hcons := splitBy_eq_cons (fun a _ => !sep a) (as.dropWhile (!sep ·)).tail
    (upThrough_ne_nil sep hne)
  rw [upThrough_append] at hcons
  apply hcons
  · rw [isChain_left_iff, upThrough]
    cases as.dropWhile (!sep ·) with
    | nil =>
      intro a ha
      rw [List.take_nil, List.append_nil] at ha
      exact hbefore a (List.dropLast_subset _ ha)
    | cons b rest =>
      rw [List.take_succ_cons, List.take_zero, List.dropLast_concat]
      exact hbefore
  · rw [upThrough]
    cases hrest : as.dropWhile (!sep ·) with
    | nil => exact nofun
    | cons b rest =>
      rw [List.take_succ_cons, List.take_zero, List.getLast?_concat]
      intro a ha c _
      cases ha
      exact not_of_head?_dropWhile (p := (!sep ·)) (congrArg List.head? hrest)

theorem splitBy_cons_eq_takeWhile (a : α) (as : List α) :
    (a :: as).splitBy (fun _ b => !sep b) =
      (a :: as.takeWhile (!sep ·)) :: (as.dropWhile (!sep ·)).splitBy fun _ b => !sep b := by
  have hcons := splitBy_eq_cons (fun _ b => !sep b) (as.dropWhile (!sep ·))
    (List.cons_ne_nil a (as.takeWhile (!sep ·)))
  rw [List.cons_append, List.takeWhile_append_dropWhile] at hcons
  apply hcons
  · rw [isChain_right_iff]
    exact fun b hb => List.mem_takeWhile_imp (p := (!sep ·)) hb
  · exact fun _ _ b hb => not_of_head?_dropWhile (p := (!sep ·)) hb

/-- The only separator of such a group is the one at its end. -/
theorem filter_eq_unterminated {group : List α} (h : ∀ a ∈ group.dropLast, sep a = false) :
    group.filter (!sep ·) = unterminated sep group := by
  rcases List.eq_nil_or_concat group with rfl | ⟨front, a, rfl⟩
  · rfl
  · rw [List.concat_eq_append] at h ⊢
    rw [List.dropLast_concat] at h
    have hfront : front.filter (!sep ·) = front := by
      rw [List.filter_eq_self]
      simpa using h
    rw [unterminated, List.getLast?_concat, List.dropLast_concat, List.filter_append, hfront]
    cases hsep : sep a with
    | true => simp [hsep]
    | false => simp [hsep]

end Cuts

namespace Parser

variable {σ : Type v} {β : Type w} (sep : α → Bool) (f : Fold α σ β)

/-! ## Up to a separator -/

/-- A run folds the elements up to the first separator, and consumes them. -/
theorem roundFrom_through (s : σ) (as : List α) :
    (through sep f).roundFrom s as = (f.stepAll s (upThrough sep as)).map fun t =>
      ⟨.ok (f.finish t), (upThrough sep as).length⟩ := by
  induction as generalizing s with
  | nil => rfl
  | cons a as ih =>
    rw [upThrough]
    cases hsep : sep a with
    | true =>
      have hstep : (through sep f).step s a = f.thenStep s a (.stop 0) := by
        simp only [through, hsep, if_true]
      rw [takeWhile_not_cons_of_sep as hsep, dropWhile_not_cons_of_sep as hsep, List.nil_append,
        List.take_succ_cons, List.take_zero]
      cases hs : f.step s a with
      | error e =>
        rw [Fold.thenStep, hs] at hstep
        rw [roundFrom_of_error _ as hstep, Fold.stepAll_cons_of_error hs]
        rfl
      | ok t =>
        rw [Fold.thenStep, hs] at hstep
        rw [roundFrom_of_stop _ as hstep rfl, Fold.stepAll_cons_of_ok hs]
        rfl
    | false =>
      have hstep : (through sep f).step s a = f.thenStep s a fun t => .yield 0 t := by
        simp only [through, hsep]
        rfl
      rw [takeWhile_not_cons_of_not_sep as hsep, dropWhile_not_cons_of_not_sep as hsep,
        List.cons_append, ← upThrough, roundFrom_of_thenStep hstep]
      cases hs : f.step s a with
      | error e =>
        rw [Fold.stepAll_cons_of_error hs]
        rfl
      | ok t =>
        rw [Except.bind, ih, map_map_except, Fold.stepAll_cons_of_ok hs]
        rfl

/-- Repeating the parser cuts a list behind each separator. -/
theorem groups_through : Groups (through sep f) f (·.splitBy fun a _ => !sep a) where
  nil := rfl
  cons := by
    intro as hne
    have happend := upThrough_append sep as
    have hlen := congrArg List.length happend
    have hdrop := congrArg (List.drop (upThrough sep as).length) happend
    rw [List.length_append] at hlen
    rw [List.drop_left] at hdrop
    refine ⟨upThrough sep as, (upThrough sep as).length,
      List.length_pos_iff.mpr (upThrough_ne_nil sep hne), by omega, ?_, ?_⟩
    · rw [← hdrop]
      exact splitBy_eq_upThrough hne
    · rw [Fold.run, map_map_except]
      exact roundFrom_through sep f f.start as

/-- A parser that drops the separator does to the source what this one does, and its result is what
is left of the group without the separator. -/
theorem through_tracks_upTo :
    Tracks (fun kept others => others = kept.filter (!sep ·)) (List.filter (!sep ·))
      (through sep .toList) (upTo sep .toList) where
  start := .ok rfl
  step := by
    rintro kept _ a rfl
    cases hsep : sep a with
    | true =>
      have hthrough : (through sep .toList).step kept a = .ok (.stop 0 (kept ++ [a])) := by
        simp only [through, hsep, if_true]
        rfl
      have hupTo : (upTo sep .toList).step (kept.filter (!sep ·)) a =
          .ok (.stop 0 (kept.filter (!sep ·))) := by
        simp only [upTo, hsep, if_true]
      rw [hthrough, hupTo]
      exact .ok (.stop 0 (by simp [hsep]))
    | false =>
      have hthrough : (through sep .toList).step kept a = .ok (.yield 0 (kept ++ [a])) := by
        simp only [through, hsep]
        rfl
      have hupTo : (upTo sep .toList).step (kept.filter (!sep ·)) a =
          .ok (.yield 0 (kept.filter (!sep ·) ++ [a])) := by
        simp only [upTo, hsep]
        rfl
      rw [hthrough, hupTo]
      exact .ok (.yield 0 (by simp [hsep]))
  finish := by
    rintro kept _ rfl
    exact .ok rfl

/-! ## Before a separator -/

theorem scans_headed : Scans (headed sep f) f (!sep ·) 1 (true, ·) where
  passes s a h := by
    simp only [Bool.not_eq_true'] at h
    simp only [headed, h]
    rfl
  fails s a h := by
    simp only [Bool.not_eq_false'] at h
    simp only [headed, h]
    rfl
  finish s := rfl

/-- Repeating the parser cuts a list in front of each separator. -/
theorem groups_headed : Groups (headed sep f) f (·.splitBy fun _ b => !sep b) :=
  groups_of_opened rfl splitBy_cons_eq_takeWhile rfl (fun _ => rfl) fun _ => scans_headed sep f

end Parser

/-- **Keeping separators is lossless.** Repeating a parser of the elements up to a separator
collects what the source reads, cut behind each separator, and there is only one way to cut it so. A
parser that drops the separator collects the same groups without the separators at their ends. After
any number of requests it has left the same source behind: at the same offset, with the same
elements pending, and with as much pulled from its input. -/
theorem keeping_separators_is_lossless {ρ : Type v} [FinitePull ρ α] (sep : α → Bool)
    (s : Source ρ α) :
    ∃ groups : List (List α),
      (∀ others, Terminated sep (Pull.elements s) others ↔ others = groups) ∧
      ∀ n, ∃ t u,
        (Repetition.start (.through sep .toList) s).answers n =
          some (Pull.served n (groups.map .ok), t) ∧
        (Repetition.start (.upTo sep .toList) s).answers n =
          some (Pull.served n ((groups.map (unterminated sep)).map .ok), u) ∧
        t.fault = none ∧ u.fault = none ∧ u.source = t.source ∧
        t.source.offset = s.offset + (groups.take n).flatten.length := by
  have hforward := Parser.through_forward Fold.toList sep
  have hgroups := Parser.groups_through sep Fold.toList
  have hcut : Terminated sep (Pull.elements s) _ := terminated_iff.mpr rfl
  refine ⟨_, fun others => terminated_iff, fun n => ?_⟩
  obtain ⟨rounds, hrounds, hcourse, hanswers⟩ := hgroups.exists_course hforward s
  obtain ⟨t, ht, hstands⟩ := hcourse.answers n
  obtain ⟨answers, t', u, ht', hu, habreast⟩ :=
    (Parser.through_tracks_upTo sep).answers hforward (.mk s false) n
  rw [hanswers] at ht
  cases ht'.symm.trans ht
  have hstripped : ((Pull.elements s).splitBy fun a _ => !sep a).map (List.filter (!sep ·)) =
      ((Pull.elements s).splitBy fun a _ => !sep a).map (unterminated sep) :=
    List.map_congr_left fun group hgroup => filter_eq_unterminated (hcut.within group hgroup)
  refine ⟨t, u, ht, ?_, hstands.fault_eq, ?_, ?_, ?_⟩
  · rw [← Pull.served_map, List.map_map] at hu
    rw [← hstripped, List.map_map]
    exact hu
  · cases habreast with
    | mk source done => rfl
  · cases habreast with
    | mk source done => rfl
  · rw [hstands.offset_eq, hgroups.total_take (List.flatten_splitBy _) hrounds]

/-- A group that is nothing but its separator, and one that lacks it. -/
theorem keeping_separators_is_lossless_openEnd :
    let s : Source (Supply Nat) Nat := .ofInput (.ofList [1, 0, 0, 2])
    Terminated (· == 0) (Pull.elements s) [[1, 0], [0], [2]] ∧
      ∃ t u,
        (Repetition.start (.through (· == 0) .toList) s).answers 2 =
          some ([some (.ok [1, 0]), some (.ok [0])], t) ∧
        (Repetition.start (.upTo (· == 0) .toList) s).answers 2 =
          some ([some (.ok [1]), some (.ok [])], u) ∧
        u.source = t.source ∧ t.source.offset = 3 := by
  intro s
  have hs : Pull.elements s = [1, 0, 0, 2] := Source.elements_ofInput_ofList _
  have hcut : Terminated (· == 0) (Pull.elements s) [[1, 0], [0], [2]] := by
    rw [hs]
    exact ⟨by decide, rfl, by decide, by decide⟩
  obtain ⟨groups, hgroups, hanswers⟩ := keeping_separators_is_lossless (· == 0) s
  obtain ⟨t, u, ht, hu, -, -, hsame, hoff⟩ := hanswers 2
  rw [← (hgroups _).mp hcut] at ht hu hoff
  exact ⟨hcut, t, u, ht, hu, hsame, hoff⟩

/-- **Cutting before separators mirrors cutting behind them.** Repeating a parser that leaves the
separator to the next group collects what the source reads, cut in front of each separator. These
groups, each reversed and in the reverse order, are those that a parser of the elements up to a
separator collects on a source that reads the same backwards. -/
theorem heading_mirrors_ending {ρ : Type v} {ρ' : Type w} [FinitePull ρ α] [FinitePull ρ' α]
    (sep : α → Bool) {s : Source ρ α} {r : Source ρ' α}
    (h : Pull.elements r = (Pull.elements s).reverse) :
    ∃ groups t u, Headed sep (Pull.elements s) groups ∧
      (Repetition.start (.headed sep .toList) s).collect = some (groups.map .ok, t) ∧
      t.fault = none ∧
      (Repetition.start (.through sep .toList) r).collect = some ((mirrored groups).map .ok, u) ∧
      u.fault = none := by
  obtain ⟨t, ht, htfault, -⟩ := (Parser.groups_headed sep Fold.toList).collect_toList
    (Parser.headed_forward Fold.toList sep) s
  obtain ⟨u, hu, hufault, -⟩ := (Parser.groups_through sep Fold.toList).collect_toList
    (Parser.through_forward Fold.toList sep) r
  rw [h, splitBy_reverse] at hu
  exact ⟨_, t, u, headed_splitBy sep _, ht, htfault, hu, hufault⟩

/-- Separators at both ends and next to each other. -/
theorem heading_mirrors_ending_bothEnds :
    let s : Source (Supply Nat) Nat := .ofInput (.ofList [0, 1, 0, 0, 2, 0])
    let r : Source (Supply Nat) Nat := .ofInput (.ofList [0, 2, 0, 0, 1, 0])
    Pull.elements r = (Pull.elements s).reverse ∧
      ∃ t u,
        (Repetition.start (.headed (· == 0) .toList) s).collect =
          some ([[0, 1], [0], [0, 2], [0]].map .ok, t) ∧
        (Repetition.start (.through (· == 0) .toList) r).collect =
          some ([[0], [2, 0], [0], [1, 0]].map .ok, u) := by
  intro s r
  have hs : Pull.elements s = [0, 1, 0, 0, 2, 0] := Source.elements_ofInput_ofList _
  have hr : Pull.elements r = [0, 2, 0, 0, 1, 0] := Source.elements_ofInput_ofList _
  have hmirror : Pull.elements r = (Pull.elements s).reverse := by
    rw [hs, hr]
    rfl
  obtain ⟨groups, t, u, hheaded, ht, -, hu, -⟩ := heading_mirrors_ending (· == 0) hmirror
  have hcut := terminated_iff.mp (headed_iff.mp hheaded)
  have hgroups : groups = [[0, 1], [0], [0, 2], [0]] := by
    rw [hs] at hcut
    have hback : mirrored (mirrored groups) = [[0, 1], [0], [0, 2], [0]] := by
      rw [hcut]
      decide
    simpa [mirrored] using hback
  subst hgroups
  exact ⟨hmirror, t, u, ht, hu⟩

end Streaming
