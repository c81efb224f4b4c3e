import GameStore.Text
import GameStore.Lib.Delimited

/-!
# Bytes shown as text

`String::from_utf8_lossy` and the ASCII case functions of the Rust library. Lines survive
them: there is a CRLF in the text exactly when there is one in the bytes.
-/

namespace GameStore

open Lib

/-! ## `from_utf8_lossy` -/

def REPLACEMENT : Char := Char.ofNat 0xFFFD

def continuation (b : UInt8) : Bool := 0x80 ≤ b && b ≤ 0xBF

/-- The second bytes of a sequence of three or four: no overlong forms, no surrogates,
nothing above `U+10FFFF`. -/
def secondOf (first second : UInt8) : Bool :=
  if first = 0xE0 then 0xA0 ≤ second && second ≤ 0xBF
  else if first = 0xED then 0x80 ≤ second && second ≤ 0x9F
  else if first = 0xF0 then 0x90 ≤ second && second ≤ 0xBF
  else if first = 0xF4 then 0x80 ≤ second && second ≤ 0x8F
  else (0xE1 ≤ first && first ≤ 0xF3) && continuation second

def char2 (a b : UInt8) : Char := Char.ofNat (a.toNat % 32 * 64 + b.toNat % 64)

def char3 (a b c : UInt8) : Char :=
  Char.ofNat (a.toNat % 16 * 4096 + b.toNat % 64 * 64 + c.toNat % 64)

def char4 (a b c d : UInt8) : Char :=
  Char.ofNat (a.toNat % 8 * 262144 + b.toNat % 64 * 4096 + c.toNat % 64 * 64 + d.toNat % 64)

/-- What is not a character is replaced, one replacement for each maximal piece of a
sequence that breaks off. -/
def lossyChars : Bytes → List Char
  | [] => []
  | [a] => if a < 0x80 then [Char.ofNat a.toNat] else [REPLACEMENT]
  | a :: b :: rest =>
    if a < 0x80 then Char.ofNat a.toNat :: lossyChars (b :: rest)
    else if 0xC2 ≤ a && a ≤ 0xDF && continuation b then char2 a b :: lossyChars rest
    else if !secondOf a b then REPLACEMENT :: lossyChars (b :: rest)
    else match rest with
      | [] => [REPLACEMENT]
      | c :: rest =>
        if !continuation c then REPLACEMENT :: lossyChars (c :: rest)
        else if a ≤ 0xEF then char3 a b c :: lossyChars rest
        else match rest with
          | [] => [REPLACEMENT]
          | d :: rest =>
            if continuation d then char4 a b c d :: lossyChars rest
            else REPLACEMENT :: lossyChars (d :: rest)

def fromUtf8Lossy (b : Bytes) : String := String.ofList (lossyChars b)

/-- The same CRLFs, also with a CR in front. -/
def SameLines (out b : Bytes) : Prop :=
  (CRLF <:+: out ↔ CRLF <:+: b) ∧ (out.head? = some 10 ↔ b.head? = some 10)

theorem SameLines.cons {out b : Bytes} (h : SameLines out b) (a : UInt8) : SameLines (a :: out) (a :: b) := by
  refine ⟨?_, Iff.rfl⟩
  rw [CRLF, pair_infix_cons, pair_infix_cons, h.2]
  exact or_congr Iff.rfl h.1

/-- A piece without ASCII shown without ASCII. -/
theorem SameLines.append {out b shown piece : Bytes} (h : SameLines out b)
    (hshown : ∀ x ∈ shown, 128 ≤ x.toNat) (hpiece : ∀ x ∈ piece, 128 ≤ x.toNat) (hs : shown ≠ [])
    (hp : piece ≠ []) : SameLines (shown ++ out) (piece ++ b) := by
  have hcr : ∀ l : Bytes, (∀ x ∈ l, 128 ≤ x.toNat) → (13 : UInt8) ∉ l := fun l hl hm =>
    absurd (hl 13 hm) (by decide)
  have hlf : ∀ l : Bytes, (∀ x ∈ l, 128 ≤ x.toNat) → l.head? ≠ some 10 := fun l hl hm =>
    absurd (hl 10 (List.mem_of_mem_head? hm)) (by decide)
  refine ⟨?_, ?_⟩
  · rw [CRLF, pair_infix_append_left (hcr shown hshown), pair_infix_append_left (hcr piece hpiece)]
    exact h.1
  · rw [List.head?_append_of_ne_nil shown hs, List.head?_append_of_ne_nil piece hp]
    exact ⟨fun hm => absurd hm (hlf shown hshown), fun hm => absurd hm (hlf piece hpiece)⟩

theorem SameLines.nil : SameLines [] [] := ⟨Iff.rfl, Iff.rfl⟩

theorem utf8EncodeChar_ne_nil (c : Char) : String.utf8EncodeChar c ≠ [] := by
  intro hnil
  have hlen := String.length_utf8EncodeChar c
  rw [hnil] at hlen
  exact absurd hlen.symm (Nat.pos_iff_ne_zero.mp c.utf8Size_pos)

/-- A character that is not ASCII, for a piece without ASCII. -/
theorem SameLines.char {out b piece : Bytes} (h : SameLines out b) {c : Char} (hc : 127 < c.toNat)
    (hpiece : ∀ x ∈ piece, 128 ≤ x.toNat) (hp : piece ≠ []) :
    SameLines (String.utf8EncodeChar c ++ out) (piece ++ b) := by
  exact h.append (fun x hx => le_of_mem_utf8EncodeChar hc hx) hpiece (utf8EncodeChar_ne_nil c) hp

theorem toNat_ofNat {n : ℕ} (h : n.isValidChar) : (Char.ofNat n).toNat = n := by
  rw [Char.ofNat, dif_pos h]
  exact Char.toNat_ofNatAux h

theorem continuation_iff {b : UInt8} : continuation b = true ↔ 128 ≤ b.toNat ∧ b.toNat ≤ 191 := by
  rw [continuation, Bool.and_eq_true, decide_eq_true_iff, decide_eq_true_iff, UInt8.le_iff_toNat_le,
    UInt8.le_iff_toNat_le]
  rfl

theorem char2_not_ascii {a b : UInt8} (h : (0xC2 ≤ a && a ≤ 0xDF && continuation b) = true) :
    127 < (char2 a b).toNat := by
  simp only [Bool.and_eq_true, decide_eq_true_eq, UInt8.le_iff_toNat_le, UInt8.reduceToNat,
    continuation_iff] at h
  have hvalid : (a.toNat % 32 * 64 + b.toNat % 64).isValidChar := by
    left
    omega
  rw [char2, toNat_ofNat hvalid]
  omega

/-- What `secondOf` rules in, in numbers. -/
theorem secondOf_bounds {a b : UInt8} (h : secondOf a b = true) :
    0xE0 ≤ a.toNat ∧ a.toNat ≤ 0xF4 ∧ 128 ≤ b.toNat ∧ b.toNat ≤ 191 ∧
      (a.toNat = 0xE0 → 0xA0 ≤ b.toNat) ∧ (a.toNat = 0xED → b.toNat ≤ 0x9F) ∧
      (a.toNat = 0xF0 → 0x90 ≤ b.toNat) ∧ (a.toNat = 0xF4 → b.toNat ≤ 0x8F) := by
  simp only [secondOf, ← UInt8.toNat_inj, UInt8.reduceToNat] at h
  split at h
  · simp only [Bool.and_eq_true, decide_eq_true_eq, UInt8.le_iff_toNat_le, UInt8.reduceToNat] at h
    omega
  split at h
  · simp only [Bool.and_eq_true, decide_eq_true_eq, UInt8.le_iff_toNat_le, UInt8.reduceToNat] at h
    omega
  split at h
  · simp only [Bool.and_eq_true, decide_eq_true_eq, UInt8.le_iff_toNat_le, UInt8.reduceToNat] at h
    omega
  split at h
  · simp only [Bool.and_eq_true, decide_eq_true_eq, UInt8.le_iff_toNat_le, UInt8.reduceToNat] at h
    omega
  · simp only [Bool.and_eq_true, decide_eq_true_eq, UInt8.le_iff_toNat_le, UInt8.reduceToNat,
      continuation_iff] at h
    omega

theorem char3_not_ascii {a b c : UInt8} (hs : secondOf a b = true) (ha : a ≤ 0xEF) :
    127 < (char3 a b c).toNat := by
  have hb := secondOf_bounds hs
  rw [UInt8.le_iff_toNat_le] at ha
  simp only [UInt8.reduceToNat] at ha
  have hvalid : (a.toNat % 16 * 4096 + b.toNat % 64 * 64 + c.toNat % 64).isValidChar := by
    by_cases h : a.toNat ≤ 0xED
    · left
      omega
    · right
      omega
  rw [char3, toNat_ofNat hvalid]
  omega

theorem char4_not_ascii {a b c d : UInt8} (hs : secondOf a b = true) (ha : ¬ a ≤ 0xEF) :
    127 < (char4 a b c d).toNat := by
  have hb := secondOf_bounds hs
  rw [UInt8.le_iff_toNat_le] at ha
  simp only [UInt8.reduceToNat] at ha
  have hvalid : (a.toNat % 8 * 262144 + b.toNat % 64 * 4096 + c.toNat % 64 * 64 + d.toNat % 64).isValidChar := by
    right
    omega
  rw [char4, toNat_ofNat hvalid]
  omega

theorem utf8EncodeChar_byte {a : UInt8} (h : a < 0x80) :
    String.utf8EncodeChar (Char.ofNat a.toNat) = [a] := by
  have hlt : a.toNat < 128 := UInt8.lt_iff_toNat_lt.mp h
  have hnat : (Char.ofNat a.toNat).toNat = a.toNat := toNat_ofNat (.inl (by omega))
  rw [utf8EncodeChar_ascii (by omega), hnat, UInt8.ofNat_toNat]

/-- One case per branch of the decoder: an ASCII byte is shown as it is, and every other
branch takes a piece without ASCII. -/
theorem sameLines_lossyChars (b : Bytes) :
    SameLines ((lossyChars b).flatMap String.utf8EncodeChar) b := by
  have hhigh : ∀ {a : UInt8}, ¬ a < 0x80 → 128 ≤ a.toNat := fun h =>
    Nat.not_lt.mp fun hlt => h (UInt8.lt_iff_toNat_lt.mpr hlt)
  have hcont : ∀ {a : UInt8}, continuation a = true → 128 ≤ a.toNat := fun h => (continuation_iff.mp h).1
  have hrep : 127 < REPLACEMENT.toNat := by decide
  -- A case for each branch of the decoder; only the two ASCII branches keep their byte.
  fun_induction lossyChars b with
  | case1 => exact SameLines.nil
  | case2 a ha =>
    rw [List.flatMap_cons, utf8EncodeChar_byte ha]
    exact SameLines.nil.cons a
  | case3 a ha =>
    rw [List.flatMap_cons]
    exact SameLines.nil.char hrep (by simpa using hhigh ha) (List.cons_ne_nil a [])
  | case4 a b rest ha ih =>
    rw [List.flatMap_cons, utf8EncodeChar_byte ha]
    exact ih.cons a
  | case5 a b rest ha h ih =>
    have hb := hcont (Bool.and_eq_true_iff.mp h).2
    rw [List.flatMap_cons]
    exact ih.char (char2_not_ascii h) (by simpa using ⟨hhigh ha, hb⟩) (List.cons_ne_nil a [b])
  | case6 a b rest ha _ _ ih =>
    rw [List.flatMap_cons]
    exact ih.char hrep (by simpa using hhigh ha) (List.cons_ne_nil a [])
  | case7 a b ha _ hs =>
    have hb := (secondOf_bounds (by simpa using hs)).2.2.1
    rw [List.flatMap_cons]
    exact SameLines.nil.char hrep (by simpa using ⟨hhigh ha, hb⟩) (List.cons_ne_nil a [b])
  | case8 a b ha _ hs c rest _ ih =>
    have hb := (secondOf_bounds (by simpa using hs)).2.2.1
    rw [List.flatMap_cons]
    exact ih.char hrep (by simpa using ⟨hhigh ha, hb⟩) (List.cons_ne_nil a [b])
  | case9 a b ha _ hs c rest hc hthree ih =>
    have hsecond : secondOf a b = true := by simpa using hs
    have hb := (secondOf_bounds hsecond).2.2.1
    have hc' := hcont (a := c) (by simpa using hc)
    rw [List.flatMap_cons]
    exact ih.char (char3_not_ascii hsecond hthree) (by simpa using ⟨hhigh ha, hb, hc'⟩)
      (List.cons_ne_nil a [b, c])
  | case10 a b ha _ hs c hc _ =>
    have hb := (secondOf_bounds (by simpa using hs)).2.2.1
    have hc' := hcont (a := c) (by simpa using hc)
    rw [List.flatMap_cons]
    exact SameLines.nil.char hrep (by simpa using ⟨hhigh ha, hb, hc'⟩) (List.cons_ne_nil a [b, c])
  | case11 a b ha _ hs c hc hfour d rest hd ih =>
    have hsecond : secondOf a b = true := by simpa using hs
    have hb := (secondOf_bounds hsecond).2.2.1
    have hc' := hcont (a := c) (by simpa using hc)
    rw [List.flatMap_cons]
    exact ih.char (char4_not_ascii hsecond hfour) (by simpa using ⟨hhigh ha, hb, hc', hcont hd⟩)
      (List.cons_ne_nil a [b, c, d])
  | case12 a b ha _ hs c hc _ d rest _ ih =>
    have hb := (secondOf_bounds (by simpa using hs)).2.2.1
    have hc' := hcont (a := c) (by simpa using hc)
    rw [List.flatMap_cons]
    exact ih.char hrep (by simpa using ⟨hhigh ha, hb, hc'⟩) (List.cons_ne_nil a [b, c])

/-- Bytes shown as text break the line where they did before. -/
theorem oneLine_fromUtf8Lossy (b : Bytes) : OneLine (fromUtf8Lossy b) ↔ ¬ CRLF <:+: b := by
  rw [OneLine, utf8_eq_flatMap, fromUtf8Lossy, String.toList_ofList, (sameLines_lossyChars b).1]

example : fromUtf8Lossy [104, 0xC3, 0xA9, 0xE2, 0x82, 33, 0xFF] = "hé\uFFFD!\uFFFD" := by decide

/-! ## ASCII case -/

def toAsciiUppercase (s : String) : String := String.ofList (s.toList.map Char.toUpper)

def toAsciiLowercase (s : String) : String := String.ofList (s.toList.map Char.toLower)

def eqIgnoreAsciiCase (a b : Bytes) : Bool :=
  let lower (x : UInt8) : UInt8 := if 65 ≤ x && x ≤ 90 then x + 32 else x
  a.map lower = b.map lower

/-- The CRLFs of a text are those of its characters. -/
theorem oneLine_iff_chars (s : String) : OneLine s ↔ ¬ ['\r', '\n'] <:+: s.toList := by
  rw [OneLine, utf8_eq_flatMap]
  suffices h : ∀ l : List Char, (CRLF <:+: l.flatMap String.utf8EncodeChar ↔ ['\r', '\n'] <:+: l) ∧
      ((l.flatMap String.utf8EncodeChar).head? = some 10 ↔ l.head? = some '\n') from not_congr (h s.toList).1
  intro l
  induction l with
  | nil => exact ⟨by simp [CRLF], by simp⟩
  | cons c l ih =>
    rw [List.flatMap_cons]
    by_cases hc : c.toNat ≤ 127
    · -- One byte, which is the CR or the LF when the character is.
      have hbyte : ∀ d : Char, d.toNat ≤ 127 → (UInt8.ofNat c.toNat = UInt8.ofNat d.toNat ↔ c = d) := by
        intro d hd
        rw [← UInt8.toNat_inj, UInt8.toNat_ofNat', UInt8.toNat_ofNat', Nat.mod_eq_of_lt (by omega),
          Nat.mod_eq_of_lt (by omega), Char.toNat_inj]
      have hcr : UInt8.ofNat c.toNat = 13 ↔ c = '\r' := hbyte '\r' (by decide)
      have hlf : UInt8.ofNat c.toNat = 10 ↔ c = '\n' := hbyte '\n' (by decide)
      rw [utf8EncodeChar_ascii hc, List.singleton_append, CRLF, pair_infix_cons, pair_infix_cons, hcr, ih.2,
        List.head?_cons, List.head?_cons, Option.some.injEq, Option.some.injEq, hlf]
      exact ⟨or_congr Iff.rfl ih.1, Iff.rfl⟩
    · have hhigh : ∀ x ∈ String.utf8EncodeChar c, 128 ≤ x.toNat := fun x hx =>
        le_of_mem_utf8EncodeChar (by omega) hx
      have hcr : c ≠ '\r' := by
        rintro rfl
        exact hc (by decide)
      have hlf : c ≠ '\n' := by
        rintro rfl
        exact hc (by decide)
      refine ⟨?_, ?_⟩
      · rw [CRLF, pair_infix_append_left fun hm => absurd (hhigh 13 hm) (by decide), pair_infix_cons]
        exact ih.1.trans (or_iff_right fun hp => hcr hp.1).symm
      · rw [List.head?_append_of_ne_nil _ (utf8EncodeChar_ne_nil c), List.head?_cons, Option.some.injEq]
        exact ⟨fun hm => absurd (hhigh 10 (List.mem_of_mem_head? hm)) (by decide), fun h => absurd h hlf⟩

/-- Upper case breaks no line. -/
theorem oneLine_toAsciiUppercase (s : String) : OneLine (toAsciiUppercase s) ↔ OneLine s := by
  have hupper : ∀ c d : Char, d.toNat < 64 → (c.toUpper = d ↔ c = d) := by
    intro c d hd
    unfold Char.toUpper
    split
    · rename_i h
      rw [UInt32.le_iff_toNat_le, UInt32.le_iff_toNat_le] at h
      have hval : d.val.toNat < 64 := hd
      have ha : 'a'.val.toNat = 97 := rfl
      have hz : 'z'.val.toNat = 122 := rfl
      have hshift : ('A'.val - 'a'.val).toNat = 2 ^ 32 - 32 := rfl
      have hsum : (c.val + ('A'.val - 'a'.val)).toNat = c.val.toNat - 32 := by
        rw [UInt32.toNat_add, hshift]
        omega
      rw [Char.ext_iff, Char.ext_iff, ← UInt32.toNat_inj, ← UInt32.toNat_inj, hsum]
      omega
    · rfl
  rw [oneLine_iff_chars, oneLine_iff_chars, toAsciiUppercase, String.toList_ofList]
  exact not_congr (pair_infix_map (fun c => hupper c _ (by decide)) (fun c => hupper c _ (by decide)) s.toList)

end GameStore
