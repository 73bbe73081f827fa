import Mathlib.Data.Nat.Bitwise
import Streaming.Proofs.Utf8.Run
import Streaming.Utf8.Checked

/-!
# Decoding from any stored value

A stored decoder may hold any values, also such as no input leads to. Decoding goes on from it
without a failure (`Decoder.report?_eq`), and the first item comes after as many bytes as the
decoder says are missing at most, but after one if it says none, and after four if it is between
sequences (`Batch.exists_next_of_longest`). Behind that item the decoder is a fresh one, whatever it
was before (`forged_recovers`).
-/

namespace Streaming.Utf8

universe u

/-! ## Checked words -/

namespace Decoder

/-- Putting six bits behind the others is the same as shifting these and filling the gap. -/
theorem extend_eq (bits : UInt32) (b : UInt8) :
    extend bits b = bits <<< 6 ||| (b &&& 0x3F).toUInt32 := by
  have hlow : b.toNat % 64 < 2 ^ 6 := Nat.mod_lt _ (by decide)
  have hmask : b.toNat &&& (0x3F : UInt8).toNat = b.toNat % 64 :=
    Nat.and_two_pow_sub_one_eq_mod b.toNat 6
  have hsix : (6 : UInt32).toNat % 32 = 6 := rfl
  -- What is lost of the bits is lost before or after they are moved.
  have hcut : bits.toNat <<< 6 % 2 ^ 32 = (bits.toNat % 2 ^ 26) <<< 6 := by
    rw [Nat.shiftLeft_eq, Nat.shiftLeft_eq]
    omega
  apply UInt32.toNat_inj.mp
  rw [extend, UInt32.toNat_or, UInt32.toNat_shiftLeft, UInt8.toNat_toUInt32, UInt8.toNat_and,
    hmask, hsix, hcut, ← Nat.shiftLeft_add_eq_or_of_lt hlow, Nat.shiftLeft_eq]
  simp only [UInt32.toNat_add, UInt32.toNat_mul, UInt8.toNat_toUInt32, UInt8.toNat_mod]
  show (bits.toNat * 64 % 2 ^ 32 + b.toNat % 64) % 2 ^ 32 = _
  omega

theorem lessOne?_eq {n : UInt8} (h : 1 < n) : lessOne? n = some (n - 1) :=
  if_pos (UInt8.le_of_lt h)

theorem judge?_eq (d : Decoder) (b : UInt8) : d.judge? b = some (d.judge b) := by
  have hmoved : moved? d.bits 6 = some (d.bits <<< 6) := if_pos (by decide)
  unfold judge? judge
  cases d.state with
  | ready => rfl
  | expect remaining lower upper =>
    simp only [hmoved, Option.bind_some, ← extend_eq]
    by_cases hout : b < lower ∨ upper < b
    · rw [if_pos hout, if_pos hout]
    · rw [if_neg hout, if_neg hout]
      by_cases hmore : 1 < remaining
      · rw [if_pos hmore, if_pos hmore, lessOne?_eq hmore]
        rfl
      · rw [if_neg hmore, if_neg hmore]
        cases scalar? (extend d.bits b) <;> rfl

theorem offer?_eq (d : Decoder) (b : UInt8) : d.offer? b = some (d.offer b) := by
  rw [offer?, judge?_eq, Option.map_some]
  unfold offer
  cases d.judge b <;> rfl

theorem offerAll?_eq (d : Decoder) (bs : List UInt8) : d.offerAll? bs = some (d.offerAll bs) := by
  induction bs generalizing d with
  | nil => rfl
  | cons b bs ih =>
    rw [offerAll?, offer?_eq, Option.bind_some, ih]
    rfl

theorem report?_eq (d : Decoder) (bs : List UInt8) : d.report? bs = some (d.report bs) := by
  rw [report?, offerAll?_eq]
  rfl

end Decoder

/-- The bound that a decoding claims is a count, if it claims one. -/
theorem Decoding.upper_hint_le {σ : Type u} [FinitePull σ UInt8] [HasHint σ] (s : Decoding σ)
    {n : Nat} (h : n ∈ (hint s).upper) : n ≤ countLimit := by
  have hhint : hint s =
      if s.finished then .exactly 0 else ((hint s.bytes).plus 1).lossy := rfl
  rw [hhint] at h
  split at h
  · cases h
    exact Nat.zero_le _
  · obtain ⟨m, -, hm⟩ := Option.bind_eq_some_iff.mp h
    obtain ⟨rfl, hle⟩ := Hint.mem_fitting hm
    exact hle

/-! ## How long the first item can take -/

namespace Decoder

/-- As many bytes complete an item at the latest. -/
def longest (d : Decoder) : Nat :=
  match d.state with
  | .ready => 4
  | .expect remaining _ _ => max 1 remaining.toNat

theorem longest_pos (d : Decoder) : 1 ≤ d.longest := by
  unfold longest
  split
  · exact Nat.le_add_left 1 3
  · exact Nat.le_max_left _ _

theorem longest_le_of_lead? {b : UInt8} {d : Decoder} (h : lead? b = some d) : d.longest ≤ 3 := by
  unfold lead? at h
  split at h
  · cases h
  · split at h
    · cases h
      exact Nat.le_of_ble_eq_true rfl
    · split at h
      · cases h
        exact Nat.le_of_ble_eq_true rfl
      · split at h
        · cases h
          exact Nat.le_of_ble_eq_true rfl
        · cases h

/-- A byte that completes no item brings the next one nearer. -/
theorem longest_lt_of_offer {d next : Decoder} {b : UInt8} (h : d.offer b = (none, next)) :
    next.longest < d.longest := by
  have hjudge : d.judge b = .more next := by
    unfold offer at h
    split at h <;> cases h
    assumption
  unfold judge at hjudge
  split at hjudge
  · rename_i hready
    have hd : d.longest = 4 := by rw [longest, hready]
    split at hjudge
    · cases hjudge
    · split at hjudge <;> cases hjudge
      rename_i hlead
      have := longest_le_of_lead? hlead
      omega
  · rename_i remaining lower upper hexpect
    have hd : d.longest = max 1 remaining.toNat := by rw [longest, hexpect]
    split at hjudge
    · cases hjudge
    · split at hjudge
      · rename_i hmore
        cases hjudge
        have hcount := UInt8.toNat_sub_of_le remaining 1 (UInt8.le_of_lt hmore)
        have hlt := UInt8.lt_iff_toNat_lt.mp hmore
        have hone : (1 : UInt8).toNat = 1 := rfl
        rw [hd]
        show max 1 (remaining - 1).toNat < _
        omega
      · split at hjudge <;> cases hjudge

theorem fresh_of_offer {d next : Decoder} {b : UInt8} {item : Item}
    (h : d.offer b = (some item, next)) : next = {} := by
  unfold offer at h
  split at h <;> cases h <;> rfl

end Decoder

namespace Batch

variable {f g : Batch} {item : Item}

/-- Enough bytes complete an item. -/
theorem exists_next_of_longest (h : f.decoder.longest ≤ f.bytes.length) :
    ∃ item g, f.next = (some item, g) ∧
      f.bytes.length ≤ g.bytes.length + f.decoder.longest := by
  obtain ⟨d, bs⟩ := f
  induction bs generalizing d with
  | nil => exact absurd h (Nat.not_le_of_lt d.longest_pos)
  | cons b bs ih =>
    have hpos := d.longest_pos
    cases ho : d.offer b with
    | mk first next =>
      cases first with
      | some item =>
        refine ⟨item, ⟨next, bs⟩, next_of_some ho bs, ?_⟩
        simp only [List.length_cons]
        omega
      | none =>
        have hlt := Decoder.longest_lt_of_offer ho
        simp only [List.length_cons] at h
        obtain ⟨item, g, hg, hle⟩ := ih next (by simp only; omega)
        refine ⟨item, g, (next_of_none ho bs).trans hg, ?_⟩
        simp only [List.length_cons] at hle ⊢
        omega

theorem fresh_of_next_some (h : f.next = (some item, g)) : g.decoder = {} := by
  obtain ⟨w, b, d, -, -, ho⟩ := exists_of_next_some h
  exact Decoder.fresh_of_offer ho

theorem isIncomplete_of_next_some (h : f.next = (some item, g)) : isIncomplete item = false := by
  obtain ⟨w, b, d, -, -, ho⟩ := exists_of_next_some h
  exact isIncomplete_of_offer ho

end Batch

/-! ## How many items there are -/

/-- At most one item for each byte, and one more for an end inside a sequence that was already
there. -/
theorem Decoder.length_report_le (d : Decoder) (bs : List UInt8) :
    (d.report bs).length ≤ bs.length + d.ending.length := by
  induction bs generalizing d with
  | nil => exact Nat.le_add_left _ 0
  | cons b bs ih =>
    obtain ⟨first, next, ho⟩ : ∃ first next, d.offer b = (first, next) := ⟨_, _, rfl⟩
    have hrest := ih next
    cases first with
    | none =>
      have hone := length_ending_le next
      rw [report, offerAll_cons_of_none ho, ← report, List.length_cons]
      omega
    | some item =>
      obtain rfl := fresh_of_offer ho
      have hnone : ({} : Decoder).ending.length = 0 := rfl
      rw [report, offerAll_cons_of_some ho, List.cons_append, ← report, List.length_cons,
        List.length_cons]
      omega

theorem Decoder.ending_of_isReady {d : Decoder} (h : d.isReady = true) : d.ending = [] := by
  have hstate : d.state = .ready := eq_of_beq h
  rw [ending, finish?, hstate]
  rfl

/-! ## Reporting runs and their first item -/

namespace Decoding.Reporting

variable {s t : Decoding (Supply UInt8)} (hs : Reporting s)

include hs

/-- Two reporting runs with the same decoder and the same bytes before them go on alike. -/
theorem agree (ht : Reporting t) {xs ys : List UInt8} (hxs : Serves xs s.bytes)
    (hys : Serves ys t.bytes) (hbatch : t.batch = s.batch) (k : Nat) :
    (Pull.take k s).1 = (Pull.take k t).1 ∧
      (Pull.take k s).2.decoder = (Pull.take k t).2.decoder ∧
      (Pull.take k s).2.bytes.inner.given + ys.length =
        (Pull.take k t).2.bytes.inner.given + xs.length := by
  have hitems : Pull.elements s = Pull.elements t := by
    rw [hs.elements_of_batch rfl, ht.elements_of_batch rfl, hbatch]
  refine ⟨by rw [Pull.fst_take, Pull.fst_take, hitems], ?_⟩
  by_cases hk : k ≤ (Pull.elements s.batch).length
  · obtain ⟨-, -, -, hsleft, -⟩ := hs.take rfl hk
    obtain ⟨-, -, -, htleft, -⟩ := ht.take hbatch hk
    obtain ⟨hsle, hsdrop⟩ := hs.drop_given hxs rfl hk
    obtain ⟨htle, htdrop⟩ := ht.drop_given hys hbatch hk
    have hlen := congrArg List.length (hsdrop.trans htdrop.symm)
    rw [List.length_drop, List.length_drop] at hlen
    exact ⟨congrArg Batch.decoder (hsleft.trans htleft.symm), by omega⟩
  · have hlt := Nat.lt_of_not_le hk
    have hlt' : (Pull.elements t.batch).length < k := by rwa [hbatch]
    have hdec : (t.decoder.offerAll (Pull.elements t.bytes)).2 =
        (s.decoder.offerAll (Pull.elements s.bytes)).2 :=
      congrArg (fun f : Batch => (f.decoder.offerAll f.bytes).2) hbatch
    rw [(hs.take_past hlt).1, (ht.take_past hlt').1, hdec, hs.given_past hxs hlt,
      ht.given_past hys hlt', Nat.add_comm]
    exact ⟨rfl, rfl⟩

/-- Where the bytes complete an item, it is the first, and the run goes on with those behind. -/
theorem take_one_of_some {bs : List UInt8} (hserves : Serves bs s.bytes) {item : Item} {g : Batch}
    (h : s.batch.next = (some item, g)) :
    ∃ t, Pull.take 1 s = ([item], t) ∧ Reporting t ∧ t.batch = g ∧ Serves bs t.bytes := by
  obtain ⟨n, t, hpull, ht, hbatch, -, hbytes⟩ := hs.pull_of_some h
  refine ⟨t, Pull.take_of_some hpull 0, ht, hbatch, ?_⟩
  rw [hbytes]
  exact (hserves.take n).1

/-- A first item that is not the error of the end is completed by the bytes. -/
theorem exists_next_of_take_one {item : Item} (h : (Pull.take 1 s).1 = [item])
    (hitem : isIncomplete item = false) : ∃ g, s.batch.next = (some item, g) := by
  cases hnext : s.batch.next with
  | mk answer g =>
    cases answer with
    | some it =>
      obtain ⟨n, t, hpull, -⟩ := hs.pull_of_some hnext
      rw [Pull.take_of_some hpull 0] at h
      cases h
      exact ⟨g, rfl⟩
    | none =>
      obtain ⟨t, hpull, -⟩ := hs.pull_of_none hnext
      have hend : [item] = g.decoder.ending := by
        rw [← h, Decoder.ending]
        cases hfinish : g.decoder.finish? with
        | none =>
          rw [hfinish] at hpull
          rw [Pull.take_of_none hpull 0]
          rfl
        | some e =>
          rw [hfinish] at hpull
          rw [Pull.take_of_some hpull 0]
          rfl
      obtain hnil | hone := ending_eq g.decoder
      · rw [hnil] at hend
        cases hend
      · rw [hone] at hend
        cases hend
        cases hitem

end Decoding.Reporting

/-- **A decoder recovers from any stored value.** From any values whatever, decoding does without
arithmetic that fails, and claims no bound that is not a count. If there are as many bytes as the
first item can take, it comes after as many at most. Behind an item that a byte completes, the run
goes on like that of a fresh decoder on the bytes left. There is at most one item for each byte and
one for the end, and no more items than bytes if the decoder is between sequences. -/
theorem forged_recovers (d : Decoder) (bs : List UInt8) :
    let run := Decoding.resume d (Supply.ofList bs)
    let first := Pull.take 1 run
    let fresh := Decoding.start .report (Supply.ofList (bs.drop first.2.bytes.inner.given))
    d.report? bs = some (Pull.elements run) ∧
    (∀ k, ∀ n ∈ (hint (Pull.take k run).2).upper, n ≤ countLimit) ∧
    (d.longest ≤ bs.length → ∃ item, first.1 = [item] ∧ isIncomplete item = false ∧
      first.2.bytes.inner.given ≤ d.longest) ∧
    (∀ item, first.1 = [item] → isIncomplete item = false → ∀ k,
      (Pull.take k first.2).1 = (Pull.take k fresh).1 ∧
      (Pull.take k first.2).2.decoder = (Pull.take k fresh).2.decoder ∧
      (Pull.take k first.2).2.bytes.inner.given =
        first.2.bytes.inner.given + (Pull.take k fresh).2.bytes.inner.given) ∧
    (Pull.elements run).length ≤ bs.length + 1 ∧
    (d.isReady = true → (Pull.elements run).length ≤ bs.length) := by
  intro run first fresh
  have hrun : Decoding.Reporting run := .resume d _
  have hserves : Serves bs run.bytes := .ofList bs
  have hbatch : run.batch = ⟨d, bs⟩ := by
    rw [Decoding.batch, hserves.elements_eq]
    rfl
  have hitems : Pull.elements run = d.report bs := by
    rw [Decoding.elements_resume, Supply.elements_ofList]
  have hcount := d.length_report_le bs
  refine ⟨?_, fun k n hn => Decoding.upper_hint_le _ hn, ?_, ?_, ?_, ?_⟩
  · rw [hitems, Decoder.report?_eq]
  · intro hlong
    obtain ⟨item, g, hnext, hle⟩ := Batch.exists_next_of_longest (f := ⟨d, bs⟩) hlong
    obtain ⟨t, hfirst, -, htbatch, hleft⟩ := hrun.take_one_of_some hserves (hbatch ▸ hnext)
    have hgiven := congrArg (fun f : Batch => f.bytes.length) htbatch
    simp only [Decoding.batch, hleft.elements_eq, List.length_drop] at hgiven hle
    have hbound := hleft.given_le
    simp only [first, hfirst]
    exact ⟨item, rfl, Batch.isIncomplete_of_next_some hnext, by omega⟩
  · intro item hone hitem k
    obtain ⟨g, hnext⟩ := hrun.exists_next_of_take_one hone hitem
    obtain ⟨t, hfirst, ht, htbatch, hleft⟩ := hrun.take_one_of_some hserves hnext
    simp only [fresh, first, hfirst]
    have hsame : (Decoding.start .report (Supply.ofList (bs.drop t.bytes.inner.given))).batch =
        t.batch := by
      have hfresh : t.decoder = {} :=
        (congrArg Batch.decoder htbatch).trans (Batch.fresh_of_next_some hnext)
      rw [Decoding.batch, Decoding.batch, hleft.elements_eq, hfresh, Decoding.start,
        Latch.elements_mk, Supply.elements_ofList]
    obtain ⟨htake, hdec, hgiven⟩ := ht.agree (.start _) hleft (.ofList _) hsame k
    have hbound := hleft.given_le
    rw [List.length_drop] at hgiven
    exact ⟨htake, hdec, by omega⟩
  · have hone := length_ending_le d
    rw [hitems]
    omega
  · intro hready
    rw [d.ending_of_isReady hready] at hcount
    rw [hitems]
    exact hcount

/-- A decoder that says no byte is missing, but is inside a sequence with all its bits set, and one
between sequences that has kept some bits. -/
theorem forged_recovers_noneMissing :
    let inside : Decoder := ⟨.expect 0 0x00 0xFF, 0xFFFFFFFF⟩
    let between : Decoder := ⟨.ready, 7⟩
    let bs : List UInt8 := [0x41, 0xE2, 0x82, 0xAC]
    let first := Pull.take 1 (Decoding.resume inside (Supply.ofList bs))
    let fresh := Decoding.start .report (Supply.ofList (bs.drop first.2.bytes.inner.given))
    inside.longest = 1 ∧ first.1 = [.error (.invalidByte 0x41 inside)] ∧
      first.2.bytes.inner.given ≤ 1 ∧ (∀ k, (Pull.take k first.2).1 = (Pull.take k fresh).1) ∧
      between.isReady = true ∧
      (Pull.elements (Decoding.resume between (Supply.ofList bs))).length ≤ 4 := by
  intro inside between bs first fresh
  have hitem : first.1 = [.error (.invalidByte 0x41 inside)] := by
    rw [Pull.fst_take, Decoding.elements_resume, Supply.elements_ofList]
    decide
  obtain ⟨-, -, hearly, hlike, -⟩ := forged_recovers inside bs
  obtain ⟨item, -, -, hgiven⟩ := hearly (by decide)
  have hready : between.isReady = true := by decide
  exact ⟨by decide, hitem, hgiven, fun k => (hlike _ hitem rfl k).1, hready,
    (forged_recovers between bs).2.2.2.2.2 hready⟩

end Streaming.Utf8
