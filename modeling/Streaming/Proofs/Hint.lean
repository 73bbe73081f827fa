import Streaming.ChunkReader
import Streaming.Proofs.Pull

/-!
# Hints that tell the truth

A hint is right where it bounds the number of elements still to come, and where both of its bounds
are counts (`Hint.Bounds`). A state is honest if its hint is right, and no element comes after an
empty answer, now and after any number of requests (`Honest`). What is sound and stays so with each
request is honest (`Honest.of_kept`); so a latch is as honest as its input (`Honest.latch`).
-/

namespace Streaming

universe u v

/-! ## Bounds -/

namespace Hint

/-- The hint is right about `n` elements, and its bounds are counts. -/
structure Bounds (h : Hint) (n : Nat) : Prop where
  lower_le : h.lower ≤ n
  le_upper : ∀ m ∈ h.upper, n ≤ m
  lower_le_limit : h.lower ≤ countLimit
  upper_le_limit : ∀ m ∈ h.upper, m ≤ countLimit

namespace Bounds

theorem exactly {n : Nat} (hn : n ≤ countLimit) : (Hint.exactly n).Bounds n where
  lower_le := Nat.le_refl n
  le_upper _ hm := Nat.le_of_eq (Option.mem_some_iff.mp hm)
  lower_le_limit := hn
  upper_le_limit _ hm := Option.mem_some_iff.mp hm ▸ hn

variable {h : Hint} {n l : Nat} (hn : h.Bounds n)

include hn

/-- Elements are added on both sides, the bounds being cut and given up where they do not fit. -/
theorem plus (k : Nat) : (h.plus k).Bounds (n + k) where
  lower_le := Nat.le_trans (Nat.min_le_left ..) (Nat.add_le_add_right hn.lower_le k)
  le_upper m hm := by
    obtain ⟨upper, hu, hfit⟩ := Option.bind_eq_some_iff.mp hm
    rw [(mem_fitting hfit).1]
    exact Nat.add_le_add_right (hn.le_upper upper hu) k
  lower_le_limit := Nat.min_le_right ..
  upper_le_limit m hm := by
    obtain ⟨upper, -, hfit⟩ := Option.bind_eq_some_iff.mp hm
    rw [(mem_fitting hfit).1]
    exact (mem_fitting hfit).2

/-- Each element becomes up to `k`, and none of them is lost. -/
theorem widen {k : Nat} (hnl : n ≤ l) (hl : l ≤ n * k) : (h.widen k).Bounds l where
  lower_le := Nat.le_trans hn.lower_le hnl
  le_upper m hm := by
    obtain ⟨upper, hu, hfit⟩ := Option.bind_eq_some_iff.mp hm
    rw [(mem_fitting hfit).1]
    exact Nat.le_trans hl (Nat.mul_le_mul_right k (hn.le_upper upper hu))
  lower_le_limit := hn.lower_le_limit
  upper_le_limit m hm := by
    obtain ⟨upper, -, hfit⟩ := Option.bind_eq_some_iff.mp hm
    rw [(mem_fitting hfit).1]
    exact (mem_fitting hfit).2

theorem lossy (hl : l ≤ n) : h.lossy.Bounds l where
  lower_le := Nat.zero_le l
  le_upper m hm := Nat.le_trans hl (hn.le_upper m hm)
  lower_le_limit := Nat.zero_le _
  upper_le_limit := hn.upper_le_limit

end Bounds

end Hint

/-! ## Honest states -/

variable {σ : Type u} {α : Type v} [FinitePull σ α] [HasHint σ]

/-- The hint is right about the elements to come, and an empty answer is the last word. -/
structure Sound (s : σ) : Prop where
  bounds : (hint s).Bounds (Pull.elements s).length
  ended : ∀ {t}, Pull.pull s = (none, t) → Pull.elements t = []

/-- The state is sound, and so is every one that requests lead to. -/
def Honest (s : σ) : Prop := ∀ n, Sound (Pull.answers n s).2

namespace Honest

/-- What is sound, and is kept by each request, is honest. -/
theorem of_kept {P : σ → Prop} (hsound : ∀ {s}, P s → Sound s)
    (hpull : ∀ {s}, P s → P (Pull.pull s).2) {s : σ} (h : P s) : Honest s := by
  intro n
  refine hsound ?_
  induction n generalizing s with
  | zero => exact h
  | succ n ih => exact ih (hpull h)

variable {s : σ} (h : Honest s)

include h

theorem sound : Sound s := h 0

theorem pull : Honest (Pull.pull s).2 := fun n => h (n + 1)

theorem answers (n : Nat) : Honest (Pull.answers n s).2 := by
  induction n generalizing s with
  | zero => exact h
  | succ n ih => exact ih h.pull

end Honest

/-! ## Latches -/

namespace Latch

/-- If the latch would still ask its input, then the input is honest, and has nothing left once the
latch has ended. -/
def Trusts (l : Latch σ) : Prop :=
  (l.ended = true → Pull.fused σ = true) →
    Honest l.inner ∧ (l.ended = true → Pull.elements l.inner = [])

theorem Trusts.honest {l : Latch σ} (h : l.Trusts) (hl : l.ended = false) : Honest l.inner :=
  (h fun hend => absurd (hl.symm.trans hend) Bool.false_ne_true).1

theorem Trusts.sound {l : Latch σ} (h : l.Trusts) : Sound l where
  bounds := by
    obtain ⟨inner, ended⟩ := l
    cases ended with
    | false =>
      rw [elements_mk]
      exact (h.honest rfl).sound.bounds
    | true =>
      rw [elements_of_ended rfl]
      cases hf : Pull.fused σ with
      | false =>
        have hhint : hint (⟨inner, true⟩ : Latch σ) = .exactly 0 := by simp [hint, hf]
        rw [hhint]
        exact .exactly (Nat.zero_le _)
      | true =>
        obtain ⟨hinner, hnil⟩ := h fun _ => hf
        have hhint : hint (⟨inner, true⟩ : Latch σ) = hint inner := by simp [hint, hf]
        have hbounds := hinner.sound.bounds
        rwa [hnil rfl, ← hhint] at hbounds
  ended hp := elements_of_next_none hp

theorem Trusts.pull {l : Latch σ} (h : l.Trusts) : (Pull.pull l).2.Trusts := by
  intro hasks
  obtain ⟨inner, ended⟩ := l
  cases ended with
  | true =>
    have hf : Pull.fused σ = true := hasks ((ended_past _).trans rfl)
    obtain ⟨hinner, hnil⟩ := h fun _ => hf
    have hnext : (Pull.pull (⟨inner, true⟩ : Latch σ)).2 = ⟨(Pull.pull inner).2, true⟩ := by
      simp [pull_eq, next, past, hf]
    obtain ⟨rest, hp⟩ := Pull.exists_of_elements_nil (hnil rfl)
    rw [hnext]
    refine ⟨hinner.pull, fun _ => ?_⟩
    rw [hp]
    exact hinner.sound.ended hp
  | false =>
    have hinner := h.honest rfl
    cases hp : Pull.pull inner with
    | mk answer rest =>
      have hrest := hinner.pull
      rw [hp] at hrest
      cases answer with
      | none =>
        have hnext : (Pull.pull (⟨inner, false⟩ : Latch σ)).2 = ⟨rest, true⟩ := by
          simp [pull_eq, next, hp]
        rw [hnext]
        exact ⟨hrest, fun _ => hinner.sound.ended hp⟩
      | some a =>
        have hnext : (Pull.pull (⟨inner, false⟩ : Latch σ)).2 = ⟨rest, false⟩ := by
          simp [pull_eq, next, hp]
        rw [hnext]
        exact ⟨hrest, fun hend => absurd hend Bool.false_ne_true⟩

end Latch

/-- A latch is as honest as its input: as long as it asks it, it goes on with it, and once it has
ended nothing is left. -/
theorem Honest.latch {input : σ} (h : Honest input) : Honest (⟨input, false⟩ : Latch σ) :=
  of_kept (P := Latch.Trusts) Latch.Trusts.sound Latch.Trusts.pull fun _ => ⟨h, nofun⟩

namespace ChunkReader

variable {κ : Type u} {β : Type v} [FinitePull κ (List β)] [HasHint κ] {r : ChunkReader κ β}

/-- A request leaves honest chunks honest, and an empty answer leaves nothing to read. -/
theorem next_keeps (h : Honest r.chunks) :
    Honest r.next.2.chunks ∧ (r.next.1 = none → Pull.elements r.next.2 = []) := by
  fun_induction next r with
  | case1 r a hr => exact ⟨h, fun hnone => absurd hnone (Option.some_ne_none a)⟩
  | case2 r hr chunks hp =>
    have hpulled := h.pull
    rw [hp] at hpulled
    refine ⟨hpulled, fun _ => ?_⟩
    have hunread : r.unread = [] := unread_of_none hr
    rw [elements_eq, h.sound.ended hp]
    exact (List.append_nil _).trans hunread
  | case3 r hr chunk chunks hp ih =>
    have hpulled := h.pull
    rw [hp] at hpulled
    exact ih hpulled

/-- A reader claims nothing about how many elements there are. -/
theorem honest (h : Honest r.chunks) : Honest r := by
  refine .of_kept (P := fun r => Honest r.chunks) ?_ (fun h => (next_keeps h).1) h
  intro r h
  refine ⟨⟨Nat.zero_le _, nofun, Nat.zero_le _, nofun⟩, fun {t} hp => ?_⟩
  have hn : r.next = (none, t) := hp
  have hnone := (next_keeps h).2
  rw [hn] at hnone
  exact hnone rfl

end ChunkReader

/-- A supply without pauses is honest, if what it claims is right about any number of its
elements. -/
theorem Supply.honest {xs : List α} (hlen : xs.length ≤ countLimit) {claim : Option Hint}
    (hclaim : ∀ h ∈ claim, ∀ n ≤ xs.length, h.Bounds n) :
    Honest ({ Supply.ofList xs with claim } : Supply α) := by
  refine Honest.of_kept (P := fun s : Supply α => s.claim = claim ∧
    ∃ ys, s.answers = ys.map some ∧ ys.length ≤ xs.length) ?_ ?_ ⟨rfl, xs, rfl, Nat.le_refl _⟩
  · rintro s ⟨hs, ys, hys, hle⟩
    have helements := Supply.elements_of_answers hys
    refine ⟨?_, fun {t} hp => ?_⟩
    · have hrest : s.rest.length = ys.length := by simp [Supply.rest, hys]
      rw [helements]
      show (s.claim.getD (.exactly s.rest.length)).Bounds ys.length
      rw [hrest, hs]
      cases claim with
      | none => exact .exactly (Nat.le_trans hle hlen)
      | some h => exact hclaim h rfl _ hle
    · cases ys with
      | nil =>
        rw [Supply.pull_of_nil hys] at hp
        cases hp
        exact Supply.elements_of_answers hys
      | cons y ys =>
        rw [Supply.pull_of_cons hys] at hp
        cases hp
  · rintro s ⟨hs, ys, hys, hle⟩
    cases ys with
    | nil =>
      rw [Supply.pull_of_nil hys]
      exact ⟨hs, [], hys, hle⟩
    | cons y ys =>
      rw [Supply.pull_of_cons hys]
      exact ⟨hs, ys, rfl, Nat.le_of_succ_le hle⟩

theorem Supply.honest_ofList {xs : List α} (hlen : xs.length ≤ countLimit) :
    Honest (Supply.ofList xs) := by
  have h : Honest ({ Supply.ofList xs with claim := none } : Supply α) := honest hlen nofun
  exact h

end Streaming
