import GameStore.Lib.BinaryFloat
import GameStore.Frame
import GameStore.ScoreOrder

/-!
# The score encoding and the numbers

Sign, exponent and fraction of a score stand for a rational number or an infinity. The
encoding is a bijection, and on these numbers it is monotone in both directions.
-/

namespace GameStore

open Lib Std

namespace F64

/-- The exact value, with 52 bits of fraction and an exponent biased by 1023, of a number
that is not NaN. -/
def value (x : F64) : WithBot (WithTop ℚ) :=
  if x.isInfinite then (if x.negative then ⊥ else ⊤)
  else ((if x.negative then -floatSize 52 1023 x.magnitude else floatSize 52 1023 x.magnitude : ℚ) :
    WithTop ℚ)

theorem value_finite {x : F64} (h : x.isInfinite = false) :
    x.value = ((floatSigned 52 1023 x.ordinal : ℚ) : WithTop ℚ) := by
  have hsize : (if x.negative then -floatSize 52 1023 x.magnitude else floatSize 52 1023 x.magnitude) =
      floatSigned 52 1023 x.ordinal := by
    unfold floatSigned ordinal
    by_cases hneg : x.negative = true
    · rw [if_pos hneg, if_pos hneg]
      by_cases hzero : x.magnitude = 0
      · rw [hzero]
        simp [floatSize_zero]
      · rw [if_pos (by omega), Int.natAbs_neg, Int.natAbs_natCast]
    · rw [if_neg hneg, if_neg hneg, if_neg (by omega), Int.natAbs_natCast]
  rw [value, h, if_neg Bool.false_ne_true, hsize]

theorem magnitude_of_infinite {x : F64} (h : x.isInfinite = true) : x.magnitude = 0x7FF0000000000000 :=
  of_decide_eq_true h

theorem magnitude_of_finite {x : F64} (hnan : x.isNaN = false) (h : x.isInfinite = false) :
    x.magnitude < 0x7FF0000000000000 := by
  have hle := of_decide_eq_false hnan
  have hne := of_decide_eq_false h
  omega

/-- The infinities are at the ends. -/
theorem ordinal_of_infinite {x : F64} (h : x.isInfinite = true) :
    x.ordinal = if x.negative then -0x7FF0000000000000 else 0x7FF0000000000000 := by
  rw [ordinal, magnitude_of_infinite h]
  split <;> rfl

theorem ordinal_of_finite {x : F64} (hnan : x.isNaN = false) (h : x.isInfinite = false) :
    -0x7FF0000000000000 < x.ordinal ∧ x.ordinal < 0x7FF0000000000000 := by
  have hlt := magnitude_of_finite hnan h
  rw [ordinal]
  split <;> omega

/-- The order of the bits is that of the values. -/
theorem value_lt_iff {a b : F64} (ha : a.isNaN = false) (hb : b.isNaN = false) :
    a.value < b.value ↔ a.ordinal < b.ordinal := by
  have hinf : ∀ x : F64, x.isInfinite = true → x.value = if x.negative then ⊥ else ⊤ := by
    intro x hx
    rw [value, if_pos hx]
  cases hia : a.isInfinite with
  | false =>
    have hboundA := ordinal_of_finite ha hia
    cases hib : b.isInfinite with
    | false =>
      rw [value_finite hia, value_finite hib, WithBot.coe_lt_coe, WithTop.coe_lt_coe]
      exact (floatSigned_strictMono 52 1023).lt_iff_lt
    | true =>
      rw [value_finite hia, hinf b hib, ordinal_of_infinite hib]
      cases b.negative with
      | false =>
        refine iff_of_true ?_ hboundA.2
        exact WithBot.coe_lt_coe.mpr (WithTop.coe_lt_top _)
      | true => exact iff_of_false not_lt_bot (by simp only [if_true]; omega)
  | true =>
    rw [hinf a hia, ordinal_of_infinite hia]
    cases hib : b.isInfinite with
    | false =>
      have hboundB := ordinal_of_finite hb hib
      rw [value_finite hib]
      cases a.negative with
      | false => exact iff_of_false not_top_lt (by simp only [Bool.false_eq_true, if_false]; omega)
      | true => exact iff_of_true (WithBot.bot_lt_coe _) hboundB.1
    | true =>
      rw [hinf b hib, ordinal_of_infinite hib]
      cases a.negative <;> cases b.negative <;> decide

/-- Places tell the two zeros apart, and only these. -/
theorem place_lt_iff {a b : F64} :
    a.place < b.place ↔ a.ordinal < b.ordinal ∨ (a = NEG_ZERO ∧ b = POS_ZERO) := by
  have hneg : ∀ x : F64, x = NEG_ZERO ↔ x.negative = true ∧ x.magnitude = 0 := by
    intro x
    constructor
    · rintro rfl
      decide
    · rintro ⟨hn, hm⟩
      exact ext_magnitude hn (hm.trans (by decide))
  have hpos : ∀ x : F64, x = POS_ZERO ↔ x.negative = false ∧ x.magnitude = 0 := by
    intro x
    constructor
    · rintro rfl
      decide
    · rintro ⟨hn, hm⟩
      exact ext_magnitude hn (hm.trans (by decide))
  rw [hneg, hpos, place, place, ordinal, ordinal]
  cases a.negative <;> cases b.negative <;> simp <;> omega

end F64

/-! ## The encoding -/

/-- The order of the records is the lexicographic order of their bytes. -/
theorem compare_lt_iff_lex (a b : Bytes) : compare a b = .lt ↔ List.Lex (· < ·) a b := by
  induction a generalizing b with
  | nil =>
    cases b with
    | nil => simp
    | cons y b => simp
  | cons x a ih =>
    cases b with
    | nil => simp
    | cons y b =>
      have hhead : compare x y = .lt ↔ x < y := by
        rw [compare_toNat, compare_lt_iff_lt, UInt8.lt_iff_toNat_lt]
      have heq : compare x y = .eq ↔ x = y := Std.compare_eq_iff_eq
      rw [List.compare_cons_cons, Ordering.then_eq_lt, List.cons_lex_cons_iff, ih, hhead, heq]

/-- The score encoding is an order embedding of the numbers. All bit patterns come back
from their encodings and all strings of eight bytes are encodings; and for two numbers that
are not NaN the encodings are in lexicographic order exactly when the values are, or the
numbers are the negative and the positive zero. -/
theorem score_encoding_embeds :
    (∀ x : F64, (decodeScore (encodeScore x)).bits = x.bits) ∧
    (∀ r : Bytes, r.length = 8 → encodeScore (decodeScore r) = r) ∧
    ∀ a b : F64, a.isNaN = false → b.isNaN = false →
      (List.Lex (· < ·) (encodeScore a) (encodeScore b) ↔
        a.value < b.value ∨ (a = F64.NEG_ZERO ∧ b = F64.POS_ZERO)) := by
  refine ⟨fun x => by rw [decodeScore_encodeScore], fun r hr => encodeScore_decodeScore hr, fun a b ha hb => ?_⟩
  rw [← compare_lt_iff_lex, compare_encodeScore, F64.place_lt_iff, F64.value_lt_iff ha hb]

theorem score_encoding_embeds_zeros :
    List.Lex (· < ·) (encodeScore F64.NEG_ZERO) (encodeScore F64.POS_ZERO) :=
  (score_encoding_embeds.2.2 F64.NEG_ZERO F64.POS_ZERO (by decide) (by decide)).mpr (.inr ⟨rfl, rfl⟩)

end GameStore
