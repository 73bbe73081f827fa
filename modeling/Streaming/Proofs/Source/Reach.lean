import Streaming.Proofs.Source.Conservation

/-!
# How far an input has been pulled

What has been pulled from the input of a source has been consumed or is pending, so the place up to
which the input has been pulled is the one behind the pending elements (`Source.kept_pulled`).
Consuming an element moves this place only if none is pending, and handing elements back does not
move it at all. So the number of elements that a reader has taken from its input can be told from
the source that it leaves behind.
-/

namespace Streaming.Source

universe u v w x

variable {σ : Type u} {α : Type v} {s t : Source σ α}

/-- How many elements have been pulled: those consumed and those pending. -/
def reach (s : Source σ α) : Nat := s.offset + s.pending.length

theorem reach_pass (s : Source σ α) : s.pass.reach = s.reach + 1 := by
  simp only [reach, offset, pass]
  omega

theorem reach_putBack (s : Source σ α) (a : α) :
    reach { s with pending := a :: s.pending } = s.reach + 1 := rfl

theorem reach_retain (s : Source σ α) (a : α) : (s.retain a).reach = s.reach + 1 := by
  rw [reach, offset_retain, pending_retain, Nat.add_right_comm]
  rfl

theorem reach_handBack {n : Nat} (h : s.handBack n = .ok t) : t.reach = s.reach := by
  have hoff := offset_handBack h
  obtain ⟨hn, rfl⟩ := handBack_eq_ok h
  simp only [reach, List.length_append, List.length_drop]
  omega

theorem reach_conclude {τ : Type w} {β : Type x} (p : Parser α τ β)
    (r : Except Fault τ × Source σ α) : (conclude p r).2.reach = r.2.reach := by
  unfold conclude
  split
  · rfl
  · split <;> rfl

variable [FinitePull σ α]

/-- An element is pulled only if none is pending. -/
theorem reach_of_fetch_some {a : α} (h : s.fetch = (some a, t)) :
    t.reach + 1 = max s.reach (s.offset + 1) := by
  have hoff := offset_fetch s
  have hpend := pending_fetch s
  rw [h] at hoff hpend
  simp only at hoff hpend
  rw [reach, hoff, hpend, List.length_tail, reach]
  omega

theorem reach_of_fetch_none (h : s.fetch = (none, t)) : t.reach = s.reach := by
  have hoff := offset_fetch s
  have hpend := pending_fetch s
  have hnone := (remaining_of_fetch_none h).1
  rw [h] at hoff hpend
  rw [remaining, List.append_eq_nil_iff] at hnone
  rw [reach, hoff, hpend, hnone.1, reach, hnone.1]
  rfl

/-- To tell that something is left takes an element. -/
theorem reach_of_atEnd {ended : Bool} (h : s.atEnd = (ended, t)) :
    t.reach = if ended then s.reach else max s.reach (s.offset + 1) := by
  cases hf : s.fetch with
  | mk answer r =>
    cases answer with
    | none =>
      simp only [atEnd, peek, hf] at h
      cases h
      exact reach_of_fetch_none hf
    | some a =>
      simp only [atEnd, peek, hf] at h
      cases h
      exact (reach_putBack r a).trans (reach_of_fetch_some hf)

/-- Dropping ends with a look at the first element that is kept. -/
theorem reach_dropWhile (p : α → Bool) (s : Source σ α) :
    (s.dropWhile p).2.reach = max s.reach
      (s.offset + min (((Pull.elements s).takeWhile p).length + 1) (Pull.elements s).length) := by
  have hoff {s t : Source σ α} {a : α} (h : s.fetch = (some a, t)) : t.offset = s.offset := by
    have hoff := offset_fetch s
    rwa [h] at hoff
  rw [elements_eq_remaining]
  fun_induction dropWhile p s with
  | case1 s t h =>
    rw [(remaining_of_fetch_none h).1]
    exact (reach_of_fetch_none h).trans (Nat.max_eq_left (Nat.le_add_right ..)).symm
  | case2 s a t h hp dropped ih =>
    have hreach := reach_of_fetch_some h
    have hpass : t.pass.offset = t.offset + 1 := Nat.add_right_comm ..
    show (t.pass.dropWhile p).2.reach = _
    rw [ih, reach_pass, hreach, hpass, hoff h, remaining_pass, remaining_of_fetch_some h,
      List.takeWhile_cons_of_pos hp, List.length_cons, List.length_cons]
    omega
  | case3 s a t h hp =>
    show reach { t with pending := a :: t.pending } = _
    rw [reach_putBack, reach_of_fetch_some h, remaining_of_fetch_some h,
      List.takeWhile_cons_of_neg hp, List.length_nil, List.length_cons]
    omega

/-! ## The input behind a source -/

/-- A list tells how many of its elements have been pulled. -/
theorem Pulled.given_eq {xs : List α} {n : Nat} {l : Latch (Supply α)}
    (h : Pulled (.ofList xs) n l) : l.inner.given = n := by
  induction h with
  | elements hle =>
    rw [Supply.elements_ofList] at hle
    exact Supply.given_take hle
  | past h hl ih => rwa [Latch.past_of_not_fused rfl]
  | ended =>
    have hgiven := (Serves.ofList xs).collect.2
    rw [Latch.snd_collect_mk] at hgiven
    rw [Supply.elements_ofList]
    exact hgiven

namespace Pulled

variable {input : σ} (h : Pulled input s.reach s.input)

include h

theorem fetch_some {a : α} (hf : s.fetch = (some a, t)) : Pulled input (t.reach + 1) t.input := by
  rw [reach_of_fetch_some hf]
  unfold fetch at hf
  split at hf
  · rename_i b pending hp
    cases hf
    have hlen : max s.reach (s.offset + 1) = s.reach := by
      simp only [reach, hp, List.length_cons]
      omega
    rwa [hlen]
  · rename_i hp
    simp only [Prod.mk.injEq] at hf
    have hlen : max s.reach (s.offset + 1) = s.reach + 1 := by
      simp only [reach, hp, List.length_nil]
      omega
    rw [hlen, ← hf.2]
    exact h.next_some (Prod.ext hf.1 rfl)

theorem fetch_none (hf : s.fetch = (none, t)) : Pulled input t.reach t.input := by
  rw [reach_of_fetch_none hf]
  unfold fetch at hf
  split at hf
  · cases hf
  · simp only [Prod.mk.injEq] at hf
    rw [← hf.2]
    exact h.next_none (Prod.ext hf.1 rfl)

theorem handBack {n : Nat} (hb : s.handBack n = .ok t) : Pulled input t.reach t.input := by
  rw [reach_handBack hb]
  obtain ⟨-, rfl⟩ := handBack_eq_ok hb
  exact h

end Pulled

/-- The input has been pulled as far as the pending elements go. -/
theorem kept_pulled (input : σ) : Kept fun s : Source σ α => Pulled input s.reach s.input where
  fetch_none h hf := h.fetch_none hf
  retain {s t a} h hf := by
    rw [reach_retain, input_retain]
    exact h.fetch_some hf
  pass {s t a} h _ hf := by
    rw [reach_pass]
    exact h.fetch_some hf
  putBack h _ hf := h.fetch_some hf
  handBack h hb := h.handBack hb
  settle h := h
  note h _ := h

end Streaming.Source
