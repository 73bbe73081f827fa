import Streaming.Hint
import Streaming.Inspect
import Streaming.Pull

/-!
# Reading chunks element by element

A reader flattens chunks into their elements. It holds one chunk at a time and asks for the next
one when the chunk it holds is used up, passing over empty chunks. An empty answer from its input
is passed on, and changes nothing in the reader. What it reads is the chunks end to end
(`elements_eq`).
-/

namespace Streaming

universe u v

/-- Chunks being read element by element. -/
structure ChunkReader (σ : Type u) (α : Type v) where
  chunks : σ
  /-- The chunk being read. -/
  current : Option (List α) := none
  /-- How many elements of it have been read. -/
  index : Nat := 0
deriving DecidableEq, Repr

namespace ChunkReader

variable {σ : Type u} {α : Type v}

/-- The elements of the current chunk that have not been read. -/
def unread (r : ChunkReader σ α) : List α := (r.current.getD []).drop r.index

theorem unread_of_none {r : ChunkReader σ α} (h : r.current.bind (·[r.index]?) = none) :
    r.unread = [] := by
  unfold unread
  cases hc : r.current with
  | none => simp
  | some chunk =>
    rw [hc, Option.bind_some] at h
    simpa using h

theorem unread_of_some {r : ChunkReader σ α} {a : α} (h : r.current.bind (·[r.index]?) = some a) :
    r.unread = a :: ({ r with index := r.index + 1 } : ChunkReader σ α).unread := by
  obtain ⟨chunk, hc, hi⟩ := Option.bind_eq_some_iff.mp h
  obtain ⟨hlt, rfl⟩ := List.getElem?_eq_some_iff.mp hi
  simp only [unread, hc, Option.getD_some]
  exact List.drop_eq_getElem_cons hlt

variable [FinitePull σ (List α)]

/-- The next element of the current chunk or, when there is none, of a later one. -/
def next (r : ChunkReader σ α) : Option α × ChunkReader σ α :=
  match r.current.bind (·[r.index]?) with
  | some a => (some a, { r with index := r.index + 1 })
  | none =>
    match _h : Pull.pull r.chunks with
    | (none, chunks) => (none, { r with chunks })
    | (some chunk, chunks) => next ⟨chunks, some chunk, 0⟩
termination_by FinitePull.left r.chunks
decreasing_by exact FinitePull.left_lt _h

theorem flatten_of_next_some {r t : ChunkReader σ α} {a : α} (h : r.next = (some a, t)) :
    r.unread ++ (Pull.elements r.chunks).flatten =
      a :: (t.unread ++ (Pull.elements t.chunks).flatten) := by
  fun_induction next r with
  | case1 r b hb =>
    cases h
    rw [unread_of_some hb]
    rfl
  | case2 r hr chunks hp => cases h
  | case3 r hr chunk chunks hp ih =>
    rw [unread_of_none hr, Pull.elements_of_some hp, ← ih h]
    rfl

theorem flatten_of_next_none {r t : ChunkReader σ α} (h : r.next = (none, t)) :
    r.unread ++ (Pull.elements r.chunks).flatten = [] := by
  fun_induction next r with
  | case1 r b hb => cases h
  | case2 r hr chunks hp =>
    rw [unread_of_none hr, Pull.elements_of_none hp]
    rfl
  | case3 r hr chunk chunks hp ih =>
    rw [unread_of_none hr, Pull.elements_of_some hp]
    exact ih h

/-- The elements to come before the next empty answer. -/
def left (r : ChunkReader σ α) : Nat :=
  r.unread.length + (Pull.elements r.chunks).flatten.length

theorem left_lt {r t : ChunkReader σ α} {a : α} (h : r.next = (some a, t)) :
    t.left < r.left := by
  have hlen := congrArg List.length (flatten_of_next_some h)
  rw [List.length_cons, List.length_append, List.length_append] at hlen
  unfold left
  omega

theorem next_of_next_none (hf : Pull.fused σ = true) {r t : ChunkReader σ α}
    (h : r.next = (none, t)) : t.next.1 = none := by
  fun_induction next r with
  | case1 r b hb => cases h
  | case2 r hr chunks hp =>
    cases h
    rw [next]
    have hnone := Pull.none_of_fused hf hp
    split
    · rename_i a ha
      cases hr.symm.trans ha
    · split
      · rfl
      · rename_i hp'
        rw [hp'] at hnone
        cases hnone
  | case3 r hr chunk chunks hp ih => exact ih h

instance : FinitePull (ChunkReader σ α) α where
  pull := next
  fused := Pull.fused σ
  none_of_fused hf _ _ h := next_of_next_none hf h
  left := left
  left_lt := left_lt

/-- Reading chunks gives what has not been read of the current one, and then the others end to
end. -/
theorem elements_eq (r : ChunkReader σ α) :
    Pull.elements r = r.unread ++ (Pull.elements r.chunks).flatten := by
  induction r using Pull.collect.induct with
  | case1 r t h => rw [Pull.elements_of_none h, flatten_of_next_none h]
  | case2 r a t h ih => rw [Pull.elements_of_some h, ih, flatten_of_next_some h]

@[simp] theorem elements_mk (chunks : σ) :
    Pull.elements ({ chunks } : ChunkReader σ α) = (Pull.elements chunks).flatten := by
  rw [elements_eq]
  rfl

instance : HasHint (ChunkReader σ α) where
  hint _ := .unknown

instance [Inspect σ] [Inspect α] : Inspect (ChunkReader σ α) where
  inspect r := Inspect.record "ChunkElements"
    [("chunks", inspect r.chunks), ("current", inspect r.current), ("index", inspect r.index)]

end ChunkReader

end Streaming
