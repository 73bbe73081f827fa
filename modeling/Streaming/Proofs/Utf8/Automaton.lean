import Streaming.Proofs.Utf8.Grammar
import Streaming.Proofs.Utf8.Run

/-!
# The decoder inside a sequence

A decoder that has taken the bytes `v` since its last item is inside a row of the table: what is
done of the row fits `v`, the bounds on the next byte are the next range, the bytes of the ranges
left are missing, and the bits are those gathered from `v` (`Inside`). One byte keeps this, or
completes the sequence, or is refused because no well-formed sequence goes on with it
(`Pending.offered`).
-/

namespace Streaming.Utf8

namespace Decoder

theorem toNat_extend {bits : UInt32} (h : bits.toNat < 0x4000000) (b : UInt8) :
    (extend bits b).toNat = bits.toNat * 64 + b.toNat % 64 := by
  simp only [extend, UInt32.toNat_add, UInt32.toNat_mul, UInt32.toNat_ofNat, UInt8.toNat_toUInt32,
    UInt8.toNat_mod, UInt8.toNat_ofNat, Nat.reduceMod, Nat.reducePow] at h ⊢
  omega

end Decoder

/-- The decoder is inside a sequence of the row, of which it has taken the bytes `v`. -/
structure Inside (row : Row) (done : List Range) (r : Range) (rest : List Range) (v : List UInt8)
    (d : Decoder) : Prop where
  mem : row ∈ rows
  split : row.ranges = done ++ r :: rest
  nonempty : v ≠ []
  fits : Fits done v
  state : d.state = .expect (.ofNat (rest.length + 1)) r.lower r.upper
  bits : d.bits.toNat = gather row.conts.length v

/-! ## Between sequences -/

section Ready

variable {row : Row} (hrow : row ∈ rows) {b : UInt8} (hb : row.lead.Has b)

include hrow hb

theorem Inside.lead {r : Range} {rest : List Range} (hconts : row.conts = r :: rest) {bits : UInt32}
    (hbits : bits.toNat = leadBits row.conts.length b) :
    Inside row [row.lead] r rest [b]
      ⟨.expect (.ofNat (rest.length + 1)) r.lower r.upper, bits⟩ where
  mem := hrow
  split := by rw [Row.ranges, hconts]; rfl
  nonempty := List.cons_ne_nil b []
  fits := .cons hb .nil
  state := rfl
  bits := hbits

theorem conts_eq_nil_iff : row.conts = [] ↔ b < 0x80 := by
  obtain ⟨hlower, hupper⟩ := hb
  simp only [rows, List.mem_cons, List.not_mem_nil, or_false] at hrow
  rcases hrow with rfl | rfl | rfl | rfl | rfl | rfl | rfl | rfl | rfl <;> grind

theorem lead?_of_conts {r : Range} {rest : List Range} (hconts : row.conts = r :: rest) :
    ∃ bits, lead? b = some ⟨.expect (.ofNat (rest.length + 1)) r.lower r.upper, bits⟩ ∧
      bits.toNat = leadBits row.conts.length b := by
  obtain ⟨hlower, hupper⟩ := hb
  simp only [rows, List.mem_cons, List.not_mem_nil, or_false] at hrow
  rcases hrow with rfl | rfl | rfl | rfl | rfl | rfl | rfl | rfl | rfl <;> cases hconts
  · refine ⟨(b % 0x20).toUInt32, ?_, by simp [leadBits]⟩
    show lead? b = some ⟨.expect 1 0x80 0xBF, _⟩
    grind [lead?, contLower, contUpper]
  · refine ⟨(b % 0x10).toUInt32, ?_, by simp [leadBits]⟩
    show lead? b = some ⟨.expect 2 0xA0 0xBF, _⟩
    grind [lead?, contUpper]
  · refine ⟨(b % 0x10).toUInt32, ?_, by simp [leadBits]⟩
    show lead? b = some ⟨.expect 2 0x80 0xBF, _⟩
    grind [lead?, contLower, contUpper]
  · refine ⟨(b % 0x10).toUInt32, ?_, by simp [leadBits]⟩
    show lead? b = some ⟨.expect 2 0x80 0x9F, _⟩
    grind [lead?, contLower]
  · refine ⟨(b % 0x10).toUInt32, ?_, by simp [leadBits]⟩
    show lead? b = some ⟨.expect 2 0x80 0xBF, _⟩
    grind [lead?, contLower, contUpper]
  · refine ⟨(b % 0x08).toUInt32, ?_, by simp [leadBits]⟩
    show lead? b = some ⟨.expect 3 0x90 0xBF, _⟩
    grind [lead?, contUpper]
  · refine ⟨(b % 0x08).toUInt32, ?_, by simp [leadBits]⟩
    show lead? b = some ⟨.expect 3 0x80 0xBF, _⟩
    grind [lead?, contLower, contUpper]
  · refine ⟨(b % 0x08).toUInt32, ?_, by simp [leadBits]⟩
    show lead? b = some ⟨.expect 3 0x80 0x8F, _⟩
    grind [lead?, contLower]

theorem judge_ready_cases (bits : UInt32) :
    (row.conts = [] ∧ Decoder.judge ⟨.ready, bits⟩ b = .scalar (Char.ofUInt8 b)) ∨
      ∃ r rest d, Decoder.judge ⟨.ready, bits⟩ b = .more d ∧
        Inside row [row.lead] r rest [b] d := by
  by_cases hnil : row.conts = []
  · have hlt := (conts_eq_nil_iff hrow hb).mp hnil
    exact .inl ⟨hnil, by simp [Decoder.judge, hlt]⟩
  · have hge := mt (conts_eq_nil_iff hrow hb).mpr hnil
    obtain ⟨r, rest, hconts⟩ := List.exists_cons_of_ne_nil hnil
    obtain ⟨bits', hlead, hbits⟩ := lead?_of_conts hrow hb hconts
    refine .inr ⟨r, rest, _, ?_, Inside.lead hrow hb hconts hbits⟩
    simp [Decoder.judge, hge, hlead]

omit hrow hb in
theorem judge_ready_refused (h : ∀ row ∈ rows, ¬ row.lead.Has b) (bits : UInt32) :
    Decoder.judge ⟨.ready, bits⟩ b = .refused := by
  simp only [rows, List.mem_cons, List.not_mem_nil, or_false, forall_eq_or_imp, forall_eq,
    Range.has_iff, UInt8.toNat_ofNat] at h
  have hout : ¬ b < 0x80 ∧ (b < 0xC2 ∨ ¬ b < 0xF5) := by
    simp only [UInt8.lt_iff_toNat_lt, UInt8.toNat_ofNat]
    omega
  grind [Decoder.judge, lead?]

end Ready

/-! ## Inside a sequence -/

namespace Inside

variable {row : Row} {done : List Range} {r : Range} {rest : List Range} {v : List UInt8}
  {d : Decoder} (h : Inside row done r rest v d) {b : UInt8}

include h

theorem unfinished : Unfinished v := unfinished_of_fits h.mem h.split h.fits

theorem length_conts : row.conts.length = v.length + rest.length := by
  have hlen := congrArg List.length h.split
  rw [List.length_append, h.fits.length_eq] at hlen
  simp only [Row.ranges, List.length_cons] at hlen
  omega

theorem bits_lt : d.bits.toNat < 0x80000 := by
  have hlen := length_conts_le h.mem
  rw [h.length_conts] at hlen
  rw [h.bits]
  exact gather_lt _ (by omega)

theorem eq_cont_of_mem {r' : Range} (hr : r' ∈ rest) : r' = .cont := by
  obtain ⟨hrow, hsplit, hne, hfits, -, -⟩ := h
  cases hfits with
  | nil => exact absurd rfl hne
  | @cons _ _ done' =>
    simp only [Row.ranges, List.cons_append, List.cons.injEq] at hsplit
    refine eq_cont_of_mem_tail hrow ?_
    rw [hsplit.2]
    cases done' with
    | nil => exact hr
    | cons _ _ => exact List.mem_append_right _ (List.mem_cons_of_mem _ hr)

theorem mem_conts : r ∈ row.conts := by
  obtain ⟨-, hsplit, hne, hfits, -, -⟩ := h
  cases hfits with
  | nil => exact absurd rfl hne
  | cons _ _ =>
    simp only [Row.ranges, List.cons_append, List.cons.injEq] at hsplit
    rw [hsplit.2]
    exact List.mem_append_right _ (List.mem_cons_self ..)

theorem toNat_extend (b : UInt8) :
    (Decoder.extend d.bits b).toNat = gather row.conts.length (v ++ [b]) := by
  rw [Decoder.toNat_extend (Nat.lt_trans h.bits_lt (by decide)), gather_append h.nonempty, h.bits]

theorem judge_refused (hb : ¬ r.Has b) : d.judge b = .refused := by
  rw [Range.has_iff_not_out, not_not] at hb
  simp [Decoder.judge, h.state, hb]

theorem judge_more {r' : Range} {rest' : List Range} (hrest : rest = r' :: rest') (hb : r.Has b) :
    ∃ d', d.judge b = .more d' ∧ Inside row (done ++ [r]) r' rest' (v ++ [b]) d' := by
  subst hrest
  obtain rfl := h.eq_cont_of_mem (List.mem_cons_self ..)
  have hlen := length_conts_le h.mem
  rw [h.length_conts, List.length_cons] at hlen
  have hsub : UInt8.ofNat (rest'.length + 1 + 1) - 1 = .ofNat (rest'.length + 1) := by
    rw [UInt8.ofNat_add _ 1]
    exact UInt8.add_sub_cancel _ _
  have hlt : 1 < UInt8.ofNat (rest'.length + 1 + 1) := by
    rw [UInt8.lt_iff_toNat_lt, UInt8.toNat_ofNat_of_lt' (show _ < 2 ^ 8 by omega)]
    exact Nat.succ_lt_succ (Nat.succ_pos _)
  have hnext : d.judge b = .more ⟨.expect (.ofNat (rest'.length + 1)) contLower contUpper,
      Decoder.extend d.bits b⟩ := by
    unfold Decoder.judge
    rw [h.state]
    simp only [List.length_cons]
    rw [if_neg (Range.has_iff_not_out.mp hb), if_pos hlt, hsub]
  refine ⟨_, hnext, h.mem, ?_, by simp, h.fits.append (.cons hb .nil), rfl, h.toNat_extend b⟩
  rw [h.split, List.append_assoc]
  rfl

theorem judge_scalar (hrest : rest = []) (hb : r.Has b) :
    ∃ c, d.judge b = .scalar c ∧ Encodes (v ++ [b]) c := by
  subst hrest
  have hw : WellFormed (v ++ [b]) := by
    refine ⟨row, h.mem, ?_⟩
    rw [h.split]
    exact h.fits.append (.cons hb .nil)
  have hpay : payload (v ++ [b]) = (Decoder.extend d.bits b).toNat := by
    rw [h.toNat_extend, payload, h.length_conts, List.length_append]
    rfl
  have hvalid : (Decoder.extend d.bits b).isValidChar := by
    have := isValidChar_payload hw
    rwa [hpay] at this
  refine ⟨⟨_, hvalid⟩, ?_, hw, hpay⟩
  have hlast : ¬ 1 < UInt8.ofNat ([] : List Range).length.succ := by decide
  unfold Decoder.judge
  rw [h.state]
  simp only
  rw [if_neg (Range.has_iff_not_out.mp hb), if_neg hlast, scalar?, dif_pos hvalid]

end Inside

/-! ## One byte -/

/-- What the byte `b` can do to a decoder `d` that has taken the bytes `v` of a sequence. -/
inductive Offered (v : List UInt8) (d : Decoder) (b : UInt8) : Prop where
  /-- The sequence goes on. -/
  | more {row : Row} {done : List Range} {r : Range} {rest : List Range} {d' : Decoder}
    (ho : d.offer b = (none, d')) (hin : Inside row done r rest (v ++ [b]) d')
  /-- The sequence is complete. -/
  | scalar {c : Char} (ho : d.offer b = (some (.ok c), {})) (hc : Encodes (v ++ [b]) c)
  /-- No sequence goes on like this. -/
  | refused (ho : d.offer b = (some (.error (.invalidByte b d)), {})) (hv : ¬ Viable (v ++ [b]))

theorem encodes_ofUInt8 {row : Row} (hrow : row ∈ rows) {b : UInt8} (hb : row.lead.Has b)
    (hnil : row.conts = []) : Encodes [b] (Char.ofUInt8 b) := by
  have hlt : b.toNat < 128 := UInt8.lt_iff_toNat_lt.mp ((conts_eq_nil_iff hrow hb).mp hnil)
  refine ⟨⟨row, hrow, ?_⟩, ?_⟩
  · rw [Row.ranges, hnil]
    exact .cons hb .nil
  · rw [payload_one, Nat.mod_eq_of_lt hlt]
    rfl

theorem offered_fresh (b : UInt8) : Offered [] {} b := by
  by_cases hlead : ∃ row ∈ rows, row.lead.Has b
  · obtain ⟨row, hrow, hb⟩ := hlead
    obtain ⟨hnil, hj⟩ | ⟨r, rest, d, hj, hin⟩ := judge_ready_cases hrow hb 0
    · exact .scalar (by simp [Decoder.offer, hj]) (encodes_ofUInt8 hrow hb hnil)
    · exact .more (by simp [Decoder.offer, hj]) hin
  · have hj := judge_ready_refused (b := b) (fun row hrow hb => hlead ⟨row, hrow, hb⟩) 0
    exact .refused (by simp [Decoder.offer, hj]) (mt viable_singleton_iff.mp hlead)

theorem Inside.offered {row : Row} {done : List Range} {r : Range} {rest : List Range}
    {v : List UInt8} {d : Decoder} (h : Inside row done r rest v d) (b : UInt8) :
    Offered v d b := by
  by_cases hb : r.Has b
  · cases hrest : rest with
    | nil =>
      obtain ⟨c, hj, hc⟩ := h.judge_scalar hrest hb
      exact .scalar (by simp [Decoder.offer, hj]) hc
    | cons r' rest' =>
      obtain ⟨d', hj, hin⟩ := h.judge_more hrest hb
      exact .more (by simp [Decoder.offer, hj]) hin
  · have hj := h.judge_refused hb
    refine .refused (by simp [Decoder.offer, hj]) ?_
    exact mt (viable_append_iff h.mem h.split h.nonempty h.fits).mp hb

/-! ## Bytes that complete no item -/

/-- The bytes `v` complete no item and leave the fresh decoder at `d`. -/
def Pending (v : List UInt8) (d : Decoder) : Prop := ({} : Decoder).offerAll v = ([], d)

namespace Pending

variable {v : List UInt8} {d : Decoder} {b : UInt8}

theorem append {d' : Decoder} (h : Pending v d) (ho : d.offer b = (none, d')) :
    Pending (v ++ [b]) d' := by
  unfold Pending at h ⊢
  rw [Decoder.offerAll_append, h]
  simp [Decoder.offerAll, ho]

theorem of_append {d' : Decoder} (h : Pending (v ++ [b]) d') :
    ∃ d, Pending v d ∧ d.offer b = (none, d') := by
  unfold Pending at h
  rw [Decoder.offerAll_append] at h
  simp only [Decoder.offerAll, List.append_nil, Prod.mk.injEq, List.append_eq_nil_iff,
    Option.toList_eq_nil_iff] at h
  exact ⟨_, Prod.ext h.1.1 rfl, Prod.ext h.1.2 h.2⟩

/-- A decoder that has completed no item since it was fresh is fresh or inside a sequence. -/
theorem inside (h : Pending v d) :
    (v = [] ∧ d = {}) ∨ ∃ row done r rest, Inside row done r rest v d := by
  -- From the back: where the other bytes leave the decoder tells what the last one can do.
  induction v using List.reverseRecOn generalizing d with
  | nil =>
    cases h
    exact .inl ⟨rfl, rfl⟩
  | append_singleton v b ih =>
    obtain ⟨d₀, hv, ho⟩ := h.of_append
    have hoff : Offered v d₀ b := by
      obtain ⟨rfl, rfl⟩ | ⟨row, done, r, rest, hin⟩ := ih hv
      · exact offered_fresh b
      · exact hin.offered b
    cases hoff with
    | more ho' hin =>
      rw [ho] at ho'
      cases ho'
      exact .inr ⟨_, _, _, _, hin⟩
    | scalar ho' _ =>
      rw [ho] at ho'
      cases ho'
    | refused ho' _ =>
      rw [ho] at ho'
      cases ho'

/-- The next byte goes on with the sequence, completes it, or is refused because no sequence goes on
with it. -/
theorem offered (h : Pending v d) (b : UInt8) : Offered v d b := by
  obtain ⟨rfl, rfl⟩ | ⟨row, done, r, rest, hin⟩ := h.inside
  · exact offered_fresh b
  · exact hin.offered b

theorem unfinished (h : Pending v d) : Unfinished v := by
  obtain ⟨rfl, -⟩ | ⟨row, done, r, rest, hin⟩ := h.inside
  · exact ⟨[0x00], by decide, by decide⟩
  · exact hin.unfinished

theorem length_le (h : Pending v d) : v.length ≤ 3 := by
  obtain ⟨rfl, -⟩ | ⟨row, done, r, rest, hin⟩ := h.inside
  · exact Nat.zero_le 3
  · have hlen := length_conts_le hin.mem
    rw [hin.length_conts] at hlen
    omega

theorem finish?_eq (h : Pending v d) :
    d.finish? = if v = [] then none else some (.incomplete d) := by
  obtain ⟨rfl, rfl⟩ | ⟨row, done, r, rest, hin⟩ := h.inside
  · rfl
  · rw [if_neg hin.nonempty, Decoder.finish?, hin.state]

end Pending

/-- The last bytes of an input are pending in the decoder that it leaves, and the others leave it
fresh. -/
theorem exists_pending (bs : List UInt8) :
    ∃ u v, u ++ v = bs ∧ (({} : Decoder).offerAll u).2 = {} ∧
      Pending v (({} : Decoder).offerAll bs).2 := by
  induction bs using List.reverseRecOn with
  | nil => exact ⟨[], [], rfl, rfl, rfl⟩
  | append_singleton bs b ih =>
    obtain ⟨u, v, huv, hu, hv⟩ := ih
    -- A byte that completes an item leaves nothing pending, whether it is taken or refused.
    have hfresh : ∀ item, (({} : Decoder).offerAll bs).2.offer b = (some item, {}) →
        ∃ u v, u ++ v = bs ++ [b] ∧ (({} : Decoder).offerAll u).2 = {} ∧
          Pending v (({} : Decoder).offerAll (bs ++ [b])).2 := by
      intro item ho
      have hall : (({} : Decoder).offerAll (bs ++ [b])).2 = {} := by
        rw [Decoder.offerAll_append, Decoder.offerAll_cons_of_some ho]
        rfl
      exact ⟨bs ++ [b], [], List.append_nil _, hall, by rw [hall]; rfl⟩
    cases hv.offered b with
    | more ho _ =>
      refine ⟨u, v ++ [b], by rw [← List.append_assoc, huv], hu, ?_⟩
      rw [Decoder.offerAll_append, Decoder.offerAll_cons_of_none ho]
      exact hv.append ho
    | scalar ho _ => exact hfresh _ ho
    | refused ho _ => exact hfresh _ ho

/-! ## Well-formed sequences -/

theorem Unfinished.of_append {v t : List UInt8} (h : Unfinished (v ++ t)) : Unfinished v := by
  obtain ⟨u, hne, hw⟩ := h
  refine ⟨t ++ u, List.append_ne_nil_of_right_ne_nil t hne, ?_⟩
  rwa [← List.append_assoc]

/-- The bytes of an unfinished sequence complete no item. -/
theorem Unfinished.exists_pending {v : List UInt8} (h : Unfinished v) : ∃ d, Pending v d := by
  induction v using List.reverseRecOn with
  | nil => exact ⟨{}, rfl⟩
  | append_singleton v b ih =>
    obtain ⟨d, hd⟩ := ih h.of_append
    cases hd.offered b with
    | more ho _ => exact ⟨_, hd.append ho⟩
    | scalar _ hc => exact absurd hc.1 (h.not_wellFormed_of_prefix List.prefix_rfl)
    | refused _ hv => exact absurd h.viable hv

/-- A fresh decoder takes a sequence for the character that it encodes, and is fresh again. -/
theorem Encodes.offerAll {s : List UInt8} {c : Char} (h : Encodes s c) :
    ({} : Decoder).offerAll s = ([.ok c], {}) := by
  cases s using List.reverseRecOn with
  | nil => exact absurd h.1 not_wellFormed_nil
  | append_singleton v b _ =>
    have hv : Unfinished v := ⟨[b], List.cons_ne_nil b [], h.1⟩
    obtain ⟨d, hd⟩ := hv.exists_pending
    cases hd.offered b with
    | more _ hin => exact absurd h.1 (hin.unfinished.not_wellFormed_of_prefix List.prefix_rfl)
    | @scalar c' ho hc =>
      have hval : c' = c := Char.toNat_inj.mp (hc.2.symm.trans h.2)
      rw [Decoder.offerAll_append, hd, Decoder.offerAll_cons_of_some ho, hval]
      rfl
    | refused _ hb =>
      have hviable : Viable (v ++ [b]) := ⟨[], by rw [List.append_nil]; exact h.1⟩
      exact absurd hviable hb

end Streaming.Utf8
