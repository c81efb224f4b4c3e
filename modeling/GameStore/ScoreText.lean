import GameStore.Commands
import GameStore.RoundTrip
import GameStore.ScoreValue

/-!
# Scores as texts

RESP2 has no doubles and sends a score as a text: a whole number below `10 ^ 17` with its
digits only, every other one as the library writes it. A command that takes a score reads
the same number off this text.
-/

namespace GameStore

open Lib

/-! ## Whole numbers -/

namespace F64

/-- What `toInt?` finds for a mantissa and a scale, in units of the smallest number. -/
theorem units_of_size {mantissa scale k : ℕ} (hscale : 1 ≤ scale)
    (h : (if 1075 ≤ scale then some (mantissa * 2 ^ (scale - 1075))
      else if mantissa % 2 ^ (1075 - scale) = 0 then some (mantissa / 2 ^ (1075 - scale))
      else none) = some k) :
    mantissa * 2 ^ (scale - 1) = k * 2 ^ 1074 := by
  split at h
  · rename_i hbig
    rw [← Option.some.inj h, Nat.mul_assoc, ← Nat.pow_add]
    congr 2
    omega
  · rename_i hsmall
    split at h
    · rename_i hdvd
      rw [← Option.some.inj h]
      obtain ⟨q, rfl⟩ := Nat.dvd_of_mod_eq_zero hdvd
      rw [Nat.mul_div_cancel_left _ (Nat.two_pow_pos _), Nat.mul_right_comm, ← Nat.pow_add, Nat.mul_comm]
      congr 2
      omega
    · cases h

theorem units_of_toInt? {x : F64} {n : ℤ} (h : x.toInt? = some n) :
    x.isFinite ∧ floatUnits 52 x.magnitude = n.natAbs * 2 ^ 1074 ∧
      n = if x.negative then -(n.natAbs : ℤ) else n.natAbs := by
  unfold toInt? at h
  dsimp only at h
  split at h
  · rename_i hfin
    obtain ⟨k, hk, hn⟩ := Option.map_eq_some_iff.mp h
    have hunits := units_of_size (by split <;> omega) hk
    have habs : n.natAbs = k := by
      rw [← hn]
      split <;> omega
    refine ⟨hfin, ?_, ?_⟩
    · rw [habs, ← hunits, floatUnits]
      split <;> simp
    · rw [habs, hn]
  · cases h

theorem isInfinite_of_isFinite {x : F64} (h : x.isFinite) : x.isInfinite = false := by
  unfold isFinite at h
  unfold isInfinite
  simp only [decide_eq_true_eq, decide_eq_false_iff_not] at h ⊢
  omega

theorem isNaN_of_isFinite {x : F64} (h : x.isFinite) : x.isNaN = false := by
  unfold isFinite at h
  unfold isNaN
  simp only [decide_eq_true_eq, decide_eq_false_iff_not] at h ⊢
  omega

/-- `2 ^ 1074` of the smallest numbers are one. -/
theorem units_eq_size (m : ℕ) : (floatUnits 52 m : ℚ) = floatSize 52 1023 m * 2 ^ 1074 := by
  have hscale : (2 : ℚ) ^ (1 - (1023 : ℕ) - (52 : ℕ) : ℤ) * 2 ^ 1074 = 1 := by
    rw [← zpow_natCast, ← zpow_add₀ two_ne_zero]
    norm_num
  rw [floatSize_eq, mul_assoc, hscale, mul_one]

theorem floatSize_of_units {m k : ℕ} (h : floatUnits 52 m = k * 2 ^ 1074) : floatSize 52 1023 m = k := by
  have hunits := units_eq_size m
  rw [h, Nat.cast_mul, Nat.cast_pow, Nat.cast_ofNat] at hunits
  exact (mul_right_cancel₀ (pow_ne_zero _ two_ne_zero) hunits).symm

/-- `toInt?` finds the value. -/
theorem value_of_toInt? {x : F64} {n : ℤ} (h : x.toInt? = some n) :
    x.value = ((n : ℚ) : WithTop ℚ) := by
  obtain ⟨hfin, hunits, hn⟩ := units_of_toInt? h
  rw [value, isInfinite_of_isFinite hfin, if_neg Bool.false_ne_true, floatSize_of_units hunits]
  congr 2
  rw [hn]
  split <;> simp

theorem eq_iff_value {a b : F64} (ha : a.isNaN = false) (hb : b.isNaN = false) :
    a.eq b ↔ a.value = b.value := by
  rw [eq_iff ha hb]
  have hlt := value_lt_iff ha hb
  have hgt := value_lt_iff hb ha
  constructor
  · intro h
    exact le_antisymm (not_lt.mp fun hba => absurd (hgt.mp hba) (by omega))
      (not_lt.mp fun hab => absurd (hlt.mp hab) (by omega))
  · intro h
    have hab : ¬ a.ordinal < b.ordinal := fun ho => (hlt.mpr ho).ne h
    have hba : ¬ b.ordinal < a.ordinal := fun ho => (hgt.mpr ho).ne' h
    omega

theorem eq_self {d : F64} (h : d.isNaN = false) : d.eq d := (eq_iff h h).mpr rfl

end F64

/-! ## Reading the text of a score -/

/-- What is relied on for reading scores: the empty text is no number, the infinities
have their names, and the digits of an integer that is the value of some finite number are
read as a number of this value. -/
structure FloatText.ReadsScores (ft : FloatText) : Prop extends FloatText.Lawful ft where
  parse_empty : ft.parse "" = none
  parse_inf : ft.parse "inf" = some F64.INFINITY
  parse_neg_inf : ft.parse "-inf" = some F64.NEG_INFINITY
  parse_whole : ∀ (n : ℤ) (d : F64), d.isFinite → d.value = ((n : ℚ) : WithTop ℚ) →
    ∃ d', ft.parse (toString n) = some d' ∧ d'.isFinite ∧ d'.value = ((n : ℚ) : WithTop ℚ)

section ScoreText

variable {ft : FloatText}

/-- The text is the score: the score commands read a number off it that equals the score,
and one that is not a number is named so. -/
def ScoreText (ft : FloatText) (text : Bytes) (score : F64) : Prop :=
  if score.isNaN then text = utf8 "NaN"
  else ∃ number, parseScore ft text = some number ∧ number.eq score

/-- The ASCII characters that can be seen. -/
def Visible (c : Char) : Prop := 33 ≤ c.toNat ∧ c.toNat ≤ 126

instance (c : Char) : Decidable (Visible c) := inferInstanceAs (Decidable (_ ∧ _))

theorem isWhitespace_visible {c : Char} (h : Visible c) : isWhitespace c = false := by
  obtain ⟨hlow, hhigh⟩ := h
  simp only [isWhitespace, List.mem_cons, List.not_mem_nil, or_false, Bool.or_eq_false_iff, Bool.and_eq_false_iff,
    decide_eq_false_iff_not]
  omega

theorem visible_plain {c : Char} (h : c.isDigit ∨ c = '-' ∨ c = '.') : Visible c := by
  obtain hd | rfl | rfl := h
  · simp only [Char.isDigit, Bool.and_eq_true, decide_eq_true_eq] at hd
    have hlow : 48 ≤ c.toNat := hd.1
    have hhigh : c.toNat ≤ 57 := hd.2
    exact ⟨by omega, by omega⟩
  · decide
  · decide

/-- Besides the library's reading, there must be a character and no blank, and the number
must be one. -/
theorem parseScore_utf8 {s : String} {d : F64} (hne : s ≠ "") (hvisible : ∀ c ∈ s.toList, Visible c)
    (hparse : ft.parse s = some d) (hd : d.isNaN = false) : parseScore ft (utf8 s) = some d := by
  have hblank : (s.isEmpty || s.toList.any isWhitespace) = false := by
    rw [Bool.or_eq_false_iff]
    refine ⟨?_, ?_⟩
    · simpa using hne
    · rw [List.any_eq_false]
      intro c hc
      rw [isWhitespace_visible (hvisible c hc)]
      exact Bool.false_ne_true
  rw [parseScore, fromUTF8?_utf8, Option.bind_some, hblank, if_neg Bool.false_ne_true, hparse, Option.bind_some,
    hd, if_neg Bool.false_ne_true]

theorem scoreText_of_parse (hft : ft.ReadsScores) {s : String} {d d' : F64} (hnan : d.isNaN = false)
    (hvisible : ∀ c ∈ s.toList, Visible c) (hparse : ft.parse s = some d') (heq : d'.eq d) :
    ScoreText ft (utf8 s) d := by
  have hne : s ≠ "" := by
    rintro rfl
    rw [hft.parse_empty] at hparse
    cases hparse
  have hd' : d'.isNaN = false := by
    simp only [F64.eq, Bool.and_eq_true, Bool.not_eq_true'] at heq
    exact heq.1.1
  rw [ScoreText, hnan, if_neg Bool.false_ne_true]
  exact ⟨d', parseScore_utf8 hne hvisible hparse hd', heq⟩

theorem visible_inf : (∀ c ∈ "inf".toList, Visible c) ∧ ∀ c ∈ "-inf".toList, Visible c := by
  have hinf : "inf".toList = ['i', 'n', 'f'] := rfl
  have hneg : "-inf".toList = ['-', 'i', 'n', 'f'] := rfl
  rw [hinf, hneg]
  simp [Visible]

theorem scoreText_displayF64 (hft : ft.ReadsScores) (d : F64) : ScoreText ft (utf8 (displayF64 ft d)) d := by
  unfold displayF64
  split
  · rename_i hnan
    rw [ScoreText, if_pos hnan]
  · rename_i hnan
    have hnan : d.isNaN = false := Bool.eq_false_iff.mpr hnan
    split
    · rename_i hinf
      cases hsign : d.negative with
      | true =>
        obtain rfl : d = F64.NEG_INFINITY := F64.eq_of_isInfinite hinf rfl (hsign.trans (by decide))
        exact scoreText_of_parse hft hnan visible_inf.2 hft.parse_neg_inf (F64.eq_self hnan)
      | false =>
        obtain rfl : d = F64.INFINITY := F64.eq_of_isInfinite hinf rfl (hsign.trans (by decide))
        exact scoreText_of_parse hft hnan visible_inf.1 hft.parse_inf (F64.eq_self hnan)
    · rename_i hinf
      have hfin : d.isFinite := F64.isFinite_of_not hnan (Bool.eq_false_iff.mpr hinf)
      exact scoreText_of_parse hft hnan (fun c hc => visible_plain (hft.plain d hfin c hc))
        (hft.parse_display d hfin) (F64.eq_self hnan)

theorem scoreText_whole (hft : ft.ReadsScores) {d : F64} {n : ℤ} (h : d.toInt? = some n) :
    ScoreText ft (utf8 (toString n)) d := by
  have hfin := (F64.units_of_toInt? h).1
  have hnan := F64.isNaN_of_isFinite hfin
  have hvalue := F64.value_of_toInt? h
  obtain ⟨d', hparse, hfin', hvalue'⟩ := hft.parse_whole n d hfin hvalue
  have heq : d'.eq d := (F64.eq_iff_value (F64.isNaN_of_isFinite hfin') hnan).mpr (hvalue'.trans hvalue.symm)
  refine scoreText_of_parse hft hnan ?_ hparse heq
  intro c hc
  exact visible_plain ((toString_int_digits n c hc).imp_right .inl)

/-- `format_score` loses nothing: whatever the score, its text is the score. -/
theorem scoreText_formatScore (hft : ft.ReadsScores) (d : F64) : ScoreText ft (utf8 (formatScore ft d)) d := by
  unfold formatScore
  split
  · rename_i n hn
    split
    · exact scoreText_whole hft hn
    · exact scoreText_displayF64 hft d
  · exact scoreText_displayF64 hft d

end ScoreText

/-! ## A library that reads whole numbers -/

/-- `n as f64`, for an integer that some number is. -/
def F64.ofInt (n : ℤ) : F64 :=
  ⟨UInt64.ofNat (floatOfUnits 52 (n.natAbs * 2 ^ 1074) + if n < 0 then 2 ^ 63 else 0)⟩

/-- The size of a number that is a whole one, in units of the smallest number. -/
theorem F64.units_of_value {d : F64} {n : ℤ} (hfin : d.isFinite) (hvalue : d.value = ((n : ℚ) : WithTop ℚ)) :
    floatUnits 52 d.magnitude = n.natAbs * 2 ^ 1074 := by
  have hnonneg : 0 ≤ floatSize 52 1023 d.magnitude := by
    rw [floatSize_eq]
    positivity
  rw [value, isInfinite_of_isFinite hfin, if_neg Bool.false_ne_true, WithBot.coe_inj, WithTop.coe_inj] at hvalue
  have hsize : floatSize 52 1023 d.magnitude = n.natAbs := by
    rw [Nat.cast_natAbs, Int.cast_abs, ← hvalue]
    split
    · rw [abs_neg, abs_of_nonneg hnonneg]
    · rw [abs_of_nonneg hnonneg]
  apply Nat.cast_injective (R := ℚ)
  rw [units_eq_size, hsize, Nat.cast_mul, Nat.cast_pow, Nat.cast_ofNat]

theorem F64.ofInt_of_units {m : ℕ} {n : ℤ} (hm : m < 0x7FF0000000000000)
    (hunits : floatUnits 52 m = n.natAbs * 2 ^ 1074) :
    (ofInt n).isFinite ∧ (ofInt n).value = ((n : ℚ) : WithTop ℚ) := by
  have hbits : (ofInt n).bits.toNat = m + if n < 0 then 2 ^ 63 else 0 := by
    rw [ofInt, ← hunits, floatOfUnits_floatUnits, UInt64.toNat_ofNat']
    apply Nat.mod_eq_of_lt
    split <;> omega
  have hmagnitude : (ofInt n).magnitude = m := by
    rw [magnitude, hbits]
    split <;> omega
  have hnegative : (ofInt n).negative = true ↔ n < 0 := by
    rw [negative_iff, hbits]
    split <;> omega
  have hfin : (ofInt n).isFinite := by
    rw [isFinite, hmagnitude]
    exact decide_eq_true hm
  have hsize := floatSize_of_units hunits
  refine ⟨hfin, ?_⟩
  rw [value, isInfinite_of_isFinite hfin, if_neg Bool.false_ne_true, hmagnitude, hsize, if_congr hnegative rfl rfl]
  congr 2
  rw [Nat.cast_natAbs, Int.cast_abs]
  split
  · rename_i hn
    rw [abs_of_neg (by exact_mod_cast hn), neg_neg]
  · rename_i hn
    rw [abs_of_nonneg (by exact_mod_cast not_lt.mp hn)]

/-- Whole numbers are written with their digits, one fraction in its shortest form, and
the other numbers are told apart by their bits. -/
def FloatText.whole : FloatText where
  display d := if d = ⟨0x400A000000000000⟩ then "3.25" else match d.toInt? with
    | some n => if F64.ofInt n = d then toString n else "." ++ d.bits.toNat.repr
    | none => "." ++ d.bits.toNat.repr
  parse s := if s = "3.25" then some ⟨0x400A000000000000⟩
    else if s = "inf" then some F64.INFINITY
    else if s = "-inf" then some F64.NEG_INFINITY
    else match s.toList with
      | '.' :: cs => (digitsFrom cs).map fun n : ℕ => ⟨UInt64.ofNat n⟩
      | '-' :: cs => (digitsFrom cs).map fun n : ℕ => F64.ofInt (-n)
      | cs => (digitsFrom cs).map fun n : ℕ => F64.ofInt n

namespace FloatText

theorem whole_parse_toString (n : ℤ) : whole.parse (toString n) = some (F64.ofInt n) := by
  have hdigits := toString_int_digits n
  have hne : ∀ (s : String) (c : Char), c ∈ s.toList → ¬ (c.isDigit ∨ c = '-') → toString n ≠ s := by
    rintro s c hc hnot rfl
    exact hnot (hdigits c hc)
  simp only [whole]
  rw [if_neg (hne "3.25" '.' (by decide) (by decide)), if_neg (hne "inf" 'n' (by decide) (by decide)),
    if_neg (hne "-inf" 'n' (by decide) (by decide))]
  cases n with
  | ofNat m =>
    obtain ⟨c, cs, hcons, hc⟩ := toDigits_eq_cons m
    have hdot : c ≠ '.' := by
      rintro rfl
      exact absurd hc (by decide)
    have hminus : c ≠ '-' := by
      rintro rfl
      exact absurd hc (by decide)
    rw [Int.ofNat_eq_natCast, toList_toString_ofNat]
    split
    · rename_i heq
      exact absurd (List.head_eq_of_cons_eq (hcons.symm.trans heq)) hdot
    · rename_i heq
      exact absurd (List.head_eq_of_cons_eq (hcons.symm.trans heq)) hminus
    · rw [digitsFrom_toDigits, Option.map_some]
  | negSucc m =>
    rw [toList_toString_negSucc]
    change (digitsFrom (Nat.toDigits 10 (m + 1))).map (fun k : ℕ => F64.ofInt (-k)) = _
    rw [digitsFrom_toDigits, Option.map_some]
    rfl

theorem whole_parse_bits (d : F64) : whole.parse ("." ++ d.bits.toNat.repr) = some d := by
  have hlist : ("." ++ d.bits.toNat.repr).toList = '.' :: Nat.toDigits 10 d.bits.toNat := by
    rw [String.toList_append, Nat.toList_repr]
    rfl
  have hne : ∀ (s : String), s.toList.head? ≠ some '.' → "." ++ d.bits.toNat.repr ≠ s := by
    rintro s hs rfl
    rw [hlist] at hs
    exact hs rfl
  simp only [whole]
  rw [if_neg (hne "3.25" (by decide)), if_neg (hne "inf" (by decide)), if_neg (hne "-inf" (by decide)), hlist]
  change (digitsFrom (Nat.toDigits 10 d.bits.toNat)).map (fun k : ℕ => (⟨UInt64.ofNat k⟩ : F64)) = _
  rw [digitsFrom_toDigits, Option.map_some, UInt64.ofNat_toNat]

theorem whole_display (d : F64) : whole.display d = "3.25" ∧ d = ⟨0x400A000000000000⟩ ∨
    (∃ n, whole.display d = toString n ∧ F64.ofInt n = d) ∨ whole.display d = "." ++ d.bits.toNat.repr := by
  simp only [whole]
  split
  · rename_i h
    exact .inl ⟨rfl, h⟩
  · split
    · rename_i n hn
      split
      · rename_i h
        exact .inr (.inl ⟨n, rfl, h⟩)
      · exact .inr (.inr rfl)
    · exact .inr (.inr rfl)

theorem whole_readsScores : whole.ReadsScores where
  plain := by
    intro d _ c hc
    obtain ⟨h, -⟩ | ⟨n, h, -⟩ | h := whole_display d
    · have hlist : "3.25".toList = ['3', '.', '2', '5'] := rfl
      rw [h, hlist] at hc
      simp only [List.mem_cons, List.not_mem_nil, or_false] at hc
      obtain rfl | rfl | rfl | rfl := hc <;> decide
    · rw [h] at hc
      exact (toString_int_digits n c hc).imp_right .inl
    · have hdot : ".".toList = ['.'] := rfl
      rw [h, String.toList_append, hdot, List.singleton_append, Nat.toList_repr] at hc
      obtain rfl | hc := List.mem_cons.mp hc
      · decide
      · exact .inl (Nat.isDigit_of_mem_toDigits (by decide) (by decide) hc)
  parse_display := by
    intro d _
    obtain ⟨h, rfl⟩ | ⟨n, h, rfl⟩ | h := whole_display d
    · rw [h]
      rfl
    · rw [h, whole_parse_toString]
    · rw [h, whole_parse_bits]
  parse_empty := rfl
  parse_inf := rfl
  parse_neg_inf := rfl
  parse_whole := by
    intro n d hfin hvalue
    have hm : d.magnitude < 0x7FF0000000000000 := of_decide_eq_true hfin
    exact ⟨F64.ofInt n, whole_parse_toString n, F64.ofInt_of_units hm (F64.units_of_value hfin hvalue)⟩

end FloatText

end GameStore
