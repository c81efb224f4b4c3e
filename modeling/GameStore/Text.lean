import GameStore.Encoding

/-!
# Texts

Rust strings are `String`s here, and on the wire they are their UTF-8 bytes.
-/

namespace GameStore

/-- The bytes of a Rust string. -/
def utf8 (s : String) : Bytes := s.toByteArray.data.toList

def CRLF : Bytes := [13, 10]

/-- A text fit for a line. -/
def OneLine (s : String) : Prop := ¬ CRLF <:+: utf8 s

theorem utf8_eq_flatMap (s : String) : utf8 s = s.toList.flatMap String.utf8EncodeChar := by
  rw [utf8, ← String.utf8Encode_toList, List.utf8Encode]
  simp

theorem fromUTF8?_utf8 (s : String) : String.fromUTF8? ⟨(utf8 s).toArray⟩ = some s := by
  have hbytes : (⟨(utf8 s).toArray⟩ : ByteArray) = s.toByteArray := by simp [utf8]
  rw [hbytes, String.fromUTF8?, dif_pos s.isValidUTF8]
  rfl

/-- The bytes of a character that is not ASCII are not ASCII. -/
theorem le_of_mem_utf8EncodeChar {c : Char} (hc : 127 < c.toNat) {b : UInt8}
    (h : b ∈ String.utf8EncodeChar c) : 128 ≤ b.toNat := by
  have hbig : ∀ n, 128 ≤ n → n < 256 → 128 ≤ (UInt8.ofNat n).toNat := by
    intro n hn hlt
    rw [UInt8.toNat_ofNat', Nat.mod_eq_of_lt hlt]
    exact hn
  have hval : c.val.toNat = c.toNat := rfl
  simp only [String.utf8EncodeChar, hval, if_neg (Nat.not_le.mpr hc)] at h
  split at h
  · simp only [List.mem_cons, List.not_mem_nil, or_false] at h
    obtain rfl | rfl := h <;> exact hbig _ (by omega) (by omega)
  · split at h
    · simp only [List.mem_cons, List.not_mem_nil, or_false] at h
      obtain rfl | rfl | rfl := h <;> exact hbig _ (by omega) (by omega)
    · simp only [List.mem_cons, List.not_mem_nil, or_false] at h
      obtain rfl | rfl | rfl | rfl := h <;> exact hbig _ (by omega) (by omega)

theorem utf8EncodeChar_ascii {c : Char} (hc : c.toNat ≤ 127) :
    String.utf8EncodeChar c = [UInt8.ofNat c.toNat] := by
  simp only [String.utf8EncodeChar]
  exact if_pos hc

theorem eq_newline_of_mem {c : Char} (h : (10 : UInt8) ∈ String.utf8EncodeChar c) : c = '\n' := by
  by_cases hc : c.toNat ≤ 127
  · rw [utf8EncodeChar_ascii hc, List.mem_singleton] at h
    have hn := congrArg UInt8.toNat h
    rw [UInt8.toNat_ofNat', Nat.mod_eq_of_lt (by omega)] at hn
    exact Char.toNat_inj.mp hn.symm
  · have := le_of_mem_utf8EncodeChar (Nat.not_le.mp hc) h
    exact absurd this (by decide)

theorem oneLine_of_not_mem {s : String} (h : '\n' ∉ s.toList) : OneLine s := by
  intro hcrlf
  have hmem : (10 : UInt8) ∈ utf8 s := hcrlf.subset (by simp [CRLF])
  rw [utf8_eq_flatMap, List.mem_flatMap] at hmem
  obtain ⟨c, hc, hb⟩ := hmem
  exact h (eq_newline_of_mem hb ▸ hc)

end GameStore
