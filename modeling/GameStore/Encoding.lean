import GameStore.Lib.BigEndian

/-!
# The on-disk layout (`encoding.rs`)

One metadata record per user key, one subkey record per element, one score-index
record per sorted-set member:

    metadata    [META_PREFIX][user_key]
    subkey      [SUBKEY_PREFIX][u32 BE key_len][user_key][u64 BE version][field]
    score index [ZSCORE_PREFIX][u32 BE key_len][user_key][u64 BE version][score][member]
-/

namespace GameStore

open Lib

abbrev Bytes := List UInt8

instance Bytes.decidableMem (b : Bytes) (l : List Bytes) : Decidable (b ∈ l) := inferInstance

/-- `raw[from..to]`. -/
def slice (raw : Bytes) (start stop : ℕ) : Bytes := (raw.take stop).drop start

def u32Be (n : UInt32) : Bytes := beBytes 4 n.toNat

def u64Be (n : UInt64) : Bytes := beBytes 8 n.toNat

def u32OfBe (l : Bytes) : UInt32 := UInt32.ofNat (ofBeBytes l)

def u64OfBe (l : Bytes) : UInt64 := UInt64.ofNat (ofBeBytes l)

def META_PREFIX : UInt8 := 0x01
def SUBKEY_PREFIX : UInt8 := 0x02
def ZSCORE_PREFIX : UInt8 := 0x03

def TYPE_STRING : UInt8 := 1
def TYPE_HASH : UInt8 := 2
def TYPE_SET : UInt8 := 3
def TYPE_ZSET : UInt8 := 4
def TYPE_LIST : UInt8 := 5

def META_HEADER_LEN : ℕ := 1 + 8 + 8

def metaKey (userKey : Bytes) : Bytes := META_PREFIX :: userKey

/-- The shape both versioned families share. The length is cast to `u32`, so
keys of `2^32` bytes and more are truncated in it. -/
def versionedPrefix (family : UInt8) (userKey : Bytes) (version : UInt64) : Bytes :=
  family :: (u32Be (UInt32.ofNat userKey.length) ++ userKey ++ u64Be version)

def subkeyPrefix (userKey : Bytes) (version : UInt64) : Bytes :=
  versionedPrefix SUBKEY_PREFIX userKey version

def subkey (userKey : Bytes) (version : UInt64) (field : Bytes) : Bytes :=
  subkeyPrefix userKey version ++ field

def parseVersioned (raw : Bytes) (family : UInt8) : Option (Bytes × UInt64 × Bytes) :=
  if raw.head? ≠ some family ∨ raw.length < 1 + 4 + 8 then none
  else
    let klen := (u32OfBe (slice raw 1 5)).toNat
    let keyEnd := 5 + klen
    let verEnd := keyEnd + 8
    if raw.length < verEnd then none
    else some (slice raw 5 keyEnd, u64OfBe (slice raw keyEnd verEnd), raw.drop verEnd)

def parseSubkey (raw : Bytes) : Option (Bytes × UInt64 × Bytes) := parseVersioned raw SUBKEY_PREFIX

/-- Owner key and version of a record of either versioned family. -/
def parseOwnerVersion (raw : Bytes) : Option (Bytes × UInt64) :=
  match raw.head? with
  | none => none
  | some family =>
    if family ≠ SUBKEY_PREFIX ∧ family ≠ ZSCORE_PREFIX then none
    else (parseVersioned raw family).map fun r => (r.1, r.2.1)

/-! ## Scores -/

/-- An `f64` as its bit pattern. -/
structure F64 where
  bits : UInt64
  deriving DecidableEq, Repr

/-- `1 << 63`. -/
def SIGN_BIT : UInt64 := (1 : UInt64) <<< 63

namespace F64

def negative (x : F64) : Bool := x.bits &&& SIGN_BIT ≠ 0

/-- Exponent and fraction bits, as a number. -/
def magnitude (x : F64) : ℕ := x.bits.toNat % 2 ^ 63

def isNaN (x : F64) : Bool := 0x7FF0000000000000 < x.magnitude

/-- Sign-magnitude reading of the bits; it orders all values that are not NaN,
and both zeros are `0`. -/
def ordinal (x : F64) : ℤ := if x.negative then -(x.magnitude : ℤ) else x.magnitude

/-- `a == b` of `f64`. -/
def eq (a b : F64) : Bool := !a.isNaN && !b.isNaN && a.ordinal == b.ordinal

/-- `a < b` of `f64`. -/
def lt (a b : F64) : Bool := !a.isNaN && !b.isNaN && decide (a.ordinal < b.ordinal)

end F64

def encodeScore (score : F64) : Bytes :=
  let bits := score.bits
  let ordered := if bits &&& SIGN_BIT ≠ 0 then ~~~bits else bits ^^^ SIGN_BIT
  u64Be ordered

def decodeScore (raw : Bytes) : F64 :=
  let ordered := u64OfBe raw
  let bits := if ordered &&& SIGN_BIT ≠ 0 then ordered ^^^ SIGN_BIT else ~~~ordered
  ⟨bits⟩

def zscorePrefix (userKey : Bytes) (version : UInt64) : Bytes :=
  versionedPrefix ZSCORE_PREFIX userKey version

def zscoreKey (userKey : Bytes) (version : UInt64) (score : F64) (member : Bytes) : Bytes :=
  zscorePrefix userKey version ++ encodeScore score ++ member

def splitScoreSuffix (suffix : Bytes) : Option (F64 × Bytes) :=
  if suffix.length < 8 then none
  else some (decodeScore (suffix.take 8), suffix.drop 8)

/-! ## Lists -/

def LIST_INITIAL_INDEX : UInt64 := (1 : UInt64) <<< 63

def listIndexField (index : UInt64) : Bytes := u64Be index

/-! ## Metadata -/

structure Meta where
  typeId : UInt8
  version : UInt64
  /-- Absolute deadline in milliseconds; `0` is none. -/
  expireMs : UInt64
  payload : Bytes
  deriving DecidableEq, Repr

namespace Meta

def encode (m : Meta) : Bytes := m.typeId :: (u64Be m.version ++ u64Be m.expireMs ++ m.payload)

def decode (raw : Bytes) : Option Meta :=
  match raw with
  | [] => none
  | typeId :: _ =>
    if raw.length < META_HEADER_LEN then none
    else some
      { typeId := typeId
        version := u64OfBe (slice raw 1 9)
        expireMs := u64OfBe (slice raw 9 17)
        payload := raw.drop META_HEADER_LEN }

def counted (m : Meta) : Bool :=
  m.typeId = TYPE_HASH ∨ m.typeId = TYPE_SET ∨ m.typeId = TYPE_ZSET

def fieldCount (m : Meta) : UInt32 :=
  if m.counted ∧ 4 ≤ m.payload.length then u32OfBe (m.payload.take 4) else 0

def setFieldCount (m : Meta) (n : UInt32) : Meta := { m with payload := u32Be n }

def listBounds (m : Meta) : Option (UInt64 × UInt64) :=
  if m.typeId ≠ TYPE_LIST ∨ m.payload.length < 16 then none
  else some (u64OfBe (m.payload.take 8), u64OfBe (slice m.payload 8 16))

def setListBounds (m : Meta) (head tail : UInt64) : Meta :=
  { m with payload := u64Be head ++ u64Be tail }

/-- The types whose elements are versioned records. -/
def composite (m : Meta) : Bool :=
  m.typeId = TYPE_HASH ∨ m.typeId = TYPE_SET ∨ m.typeId = TYPE_ZSET ∨ m.typeId = TYPE_LIST

end Meta

/-! ## Fixed-width fields -/

@[simp] theorem length_u32Be (n : UInt32) : (u32Be n).length = 4 := length_beBytes 4 _

@[simp] theorem length_u64Be (n : UInt64) : (u64Be n).length = 8 := length_beBytes 8 _

@[simp] theorem u32OfBe_u32Be (n : UInt32) : u32OfBe (u32Be n) = n := by
  rw [u32OfBe, u32Be, ofBeBytes_beBytes, Nat.mod_eq_of_lt (by have := n.toNat_lt; norm_num; omega),
    UInt32.ofNat_toNat]

@[simp] theorem u64OfBe_u64Be (n : UInt64) : u64OfBe (u64Be n) = n := by
  rw [u64OfBe, u64Be, ofBeBytes_beBytes, Nat.mod_eq_of_lt (by have := n.toNat_lt; norm_num; omega),
    UInt64.ofNat_toNat]

theorem u32Be_u32OfBe {l : Bytes} (h : l.length = 4) : u32Be (u32OfBe l) = l := by
  have hl := ofBeBytes_lt l
  rw [h] at hl
  rw [u32Be, u32OfBe, UInt32.toNat_ofNat', Nat.mod_eq_of_lt (by norm_num at hl ⊢; omega), ← h,
    beBytes_ofBeBytes]

theorem u64Be_u64OfBe {l : Bytes} (h : l.length = 8) : u64Be (u64OfBe l) = l := by
  have hl := ofBeBytes_lt l
  rw [h] at hl
  rw [u64Be, u64OfBe, UInt64.toNat_ofNat', Nat.mod_eq_of_lt (by norm_num at hl ⊢; omega), ← h,
    beBytes_ofBeBytes]

theorem u64Be_injective : Function.Injective u64Be := by
  intro a b h
  simpa using congrArg u64OfBe h

theorem slice_append_mid {a b c : Bytes} {start stop : ℕ} (ha : a.length = start)
    (hb : a.length + b.length = stop) : slice (a ++ (b ++ c)) start stop = b := by
  rw [slice, ← List.append_assoc, ← hb, ← List.length_append, List.take_left, ← ha, List.drop_left]

/-! ## The key format is unambiguous -/

theorem metaKey_injective : Function.Injective metaKey := fun _ _ h => List.tail_eq_of_cons_eq h

@[simp] theorem metaKey_inj {k k' : Bytes} : metaKey k = metaKey k' ↔ k = k' :=
  metaKey_injective.eq_iff

@[simp] theorem length_versionedPrefix (family : UInt8) (k : Bytes) (v : UInt64) :
    (versionedPrefix family k v).length = 5 + k.length + 8 := by
  simp [versionedPrefix]
  omega

theorem parseVersioned_append {family : UInt8} {k : Bytes} (hk : k.length < 2 ^ 32) (v : UInt64)
    (rest : Bytes) : parseVersioned (versionedPrefix family k v ++ rest) family = some (k, v, rest) := by
  have hlen : (UInt32.ofNat k.length).toNat = k.length := by
    rw [UInt32.toNat_ofNat', Nat.mod_eq_of_lt hk]
  have hassoc : versionedPrefix family k v ++ rest =
      [family] ++ (u32Be (UInt32.ofNat k.length) ++ (k ++ (u64Be v ++ rest))) := by
    simp [versionedPrefix]
  have hkl : slice (versionedPrefix family k v ++ rest) 1 5 = u32Be (UInt32.ofNat k.length) := by
    rw [hassoc]
    exact slice_append_mid rfl (by simp)
  have hkey : slice (versionedPrefix family k v ++ rest) 5 (5 + k.length) = k := by
    rw [hassoc, ← List.append_assoc]
    exact slice_append_mid (by simp) (by simp)
  have hver : slice (versionedPrefix family k v ++ rest) (5 + k.length) (5 + k.length + 8) =
      u64Be v := by
    rw [hassoc, ← List.append_assoc, ← List.append_assoc]
    exact slice_append_mid (by simp; omega) (by simp; omega)
  have hrest : (versionedPrefix family k v ++ rest).drop (5 + k.length + 8) = rest := by
    rw [← length_versionedPrefix family k v, List.drop_left]
  have hhead : (versionedPrefix family k v ++ rest).head? = some family := rfl
  have hlen13 : ¬ (versionedPrefix family k v ++ rest).length < 1 + 4 + 8 := by simp; omega
  have hend : ¬ (versionedPrefix family k v ++ rest).length < 5 + k.length + 8 := by simp
  simp only [parseVersioned, hkl, u32OfBe_u32Be, hlen, hkey, hver, u64OfBe_u64Be, hrest, hhead,
    hlen13, hend, ne_eq, not_true_eq_false, or_self, if_false]

/-- What parses was laid out by `versionedPrefix`. -/
theorem parseVersioned_eq_some {raw : Bytes} {family : UInt8} {k : Bytes} {v : UInt64}
    {rest : Bytes} : parseVersioned raw family = some (k, v, rest) ↔
      k.length < 2 ^ 32 ∧ raw = versionedPrefix family k v ++ rest := by
  constructor
  · intro h
    simp only [parseVersioned, ne_eq] at h
    split at h
    · cases h
    rename_i hhead
    push Not at hhead
    split at h
    · cases h
    rename_i hend
    simp only [Option.some.injEq, Prod.mk.injEq] at h
    obtain ⟨hk, hv, hr⟩ := h
    set klen := (u32OfBe (slice raw 1 5)).toNat with hklen
    have h4 : (slice raw 1 5).length = 4 := by simp [slice]; omega
    have h8 : (slice raw (5 + klen) (5 + klen + 8)).length = 8 := by simp [slice]; omega
    have hkl : k.length = klen := by rw [← hk]; simp [slice]; omega
    refine ⟨by rw [hkl]; exact UInt32.toNat_lt _, ?_⟩
    have hu32 : u32Be (UInt32.ofNat k.length) = slice raw 1 5 := by
      rw [hkl, hklen, UInt32.ofNat_toNat, u32Be_u32OfBe h4]
    have hu64 : u64Be v = slice raw (5 + klen) (5 + klen + 8) := by rw [← hv, u64Be_u64OfBe h8]
    obtain ⟨t, rfl⟩ : ∃ t, raw = family :: t := by
      cases raw with
      | nil => simp at hhead
      | cons b t => exact ⟨t, by simpa using hhead.1⟩
    have hcut : ∀ i j, i ≤ j → (family :: t).drop i =
        slice (family :: t) i j ++ (family :: t).drop j := by
      intro i j hij
      nth_rewrite 1 [← List.take_append_drop j (family :: t)]
      by_cases hj : j ≤ (family :: t).length
      · rw [List.drop_append_of_le_length (by simp at hj ⊢; omega)]
        rfl
      · have hnil : (family :: t).drop j = [] := List.drop_eq_nil_of_le (by omega)
        rw [hnil, List.append_nil, List.append_nil]
        rfl
    have h1 := hcut 1 5 (by omega)
    rw [hcut 5 (5 + klen) (by omega), hcut (5 + klen) (5 + klen + 8) (by omega), hk, hr, ← hu32,
      ← hu64] at h1
    simpa [versionedPrefix] using h1
  · rintro ⟨hk, rfl⟩
    exact parseVersioned_append hk v rest

theorem parseOwnerVersion_eq_some {raw : Bytes} {k : Bytes} {v : UInt64} :
    parseOwnerVersion raw = some (k, v) ↔ k.length < 2 ^ 32 ∧
      (subkeyPrefix k v <+: raw ∨ zscorePrefix k v <+: raw) := by
  cases raw with
  | nil => simp [parseOwnerVersion, subkeyPrefix, zscorePrefix, versionedPrefix]
  | cons family t =>
    have hparse : ((parseVersioned (family :: t) family).map fun r => (r.1, r.2.1)) = some (k, v) ↔
        k.length < 2 ^ 32 ∧ versionedPrefix family k v <+: family :: t := by
      constructor
      · intro h
        obtain ⟨⟨k', v', rest⟩, hp, he⟩ := Option.map_eq_some_iff.mp h
        obtain ⟨hk, hraw⟩ := parseVersioned_eq_some.mp hp
        simp only [Prod.mk.injEq] at he
        obtain ⟨rfl, rfl⟩ := he
        exact ⟨hk, rest, hraw.symm⟩
      · rintro ⟨hk, rest, hraw⟩
        rw [← hraw, parseVersioned_append hk]
        rfl
    have hother : ∀ other : UInt8, versionedPrefix other k v <+: family :: t → other = family := by
      rintro other ⟨rest, hraw⟩
      exact List.head_eq_of_cons_eq hraw
    simp only [parseOwnerVersion, List.head?_cons]
    split
    · rename_i hne
      simp only [reduceCtorEq, false_iff, not_and, not_or]
      exact fun _ => ⟨fun h => hne.1 (hother _ h).symm, fun h => hne.2 (hother _ h).symm⟩
    · rename_i hfam
      rw [hparse]
      apply and_congr_right
      intro _
      constructor
      · intro h
        by_cases hs : family = SUBKEY_PREFIX
        · subst hs; exact .inl h
        · have hz : family = ZSCORE_PREFIX := by
            by_contra hz
            exact hfam ⟨hs, hz⟩
          subst hz; exact .inr h
      · rintro (h | h)
        · obtain rfl := hother _ h
          exact h
        · obtain rfl := hother _ h
          exact h

@[simp] theorem parseOwnerVersion_metaKey (k : Bytes) : parseOwnerVersion (metaKey k) = none := rfl

theorem parseOwnerVersion_subkey {k : Bytes} (hk : k.length < 2 ^ 32) (v : UInt64) (f : Bytes) :
    parseOwnerVersion (subkey k v f) = some (k, v) :=
  parseOwnerVersion_eq_some.mpr ⟨hk, .inl (List.prefix_append _ _)⟩

theorem parseOwnerVersion_zscoreKey {k : Bytes} (hk : k.length < 2 ^ 32) (v : UInt64) (s : F64)
    (m : Bytes) : parseOwnerVersion (zscoreKey k v s m) = some (k, v) :=
  parseOwnerVersion_eq_some.mpr ⟨hk, .inr (by simp [zscoreKey])⟩

theorem subkey_inj {k : Bytes} {v : UInt64} {f f' : Bytes} :
    subkey k v f = subkey k v f' ↔ f = f' := List.append_right_inj _

/-! ## Score round trip -/

theorem signBit_eq : SIGN_BIT.toBitVec = BitVec.twoPow 64 63 := by decide

theorem and_signBit_ne_zero (x : UInt64) : x &&& SIGN_BIT ≠ 0 ↔ x.toBitVec.getLsbD 63 = true := by
  rw [ne_eq, ← UInt64.toBitVec_inj, UInt64.toBitVec_and, signBit_eq, BitVec.and_twoPow]
  split
  · rename_i h
    simp only [h, iff_true]
    decide
  · rename_i h
    simp only [h]
    decide

theorem F64.negative_iff (x : F64) : x.negative = true ↔ 2 ^ 63 ≤ x.bits.toNat := by
  have hmsb : x.bits.toBitVec.getLsbD 63 = x.bits.toBitVec.msb := by rw [BitVec.msb_eq_getLsbD_last]
  have htoNat : x.bits.toBitVec.toNat = x.bits.toNat := rfl
  rw [negative, decide_eq_true_iff, and_signBit_ne_zero, hmsb, BitVec.msb_eq_true_iff_two_mul_ge, htoNat]
  omega

/-- The sign and the magnitude are all there is to a number. -/
theorem F64.ext_magnitude {x y : F64} (hsign : x.negative = y.negative)
    (hmag : x.magnitude = y.magnitude) : x = y := by
  have hx := x.negative_iff
  have hy := y.negative_iff
  have hxlt := x.bits.toNat_lt
  have hylt := y.bits.toNat_lt
  rw [hsign] at hx
  unfold magnitude at hmag
  have hbits : x.bits.toNat = y.bits.toNat := by
    by_cases h : y.negative = true
    · have hx' := hx.mp h
      have hy' := hy.mp h
      omega
    · have hx' := mt hx.mpr h
      have hy' := mt hy.mpr h
      omega
  exact congrArg F64.mk (UInt64.toNat_inj.mp hbits)

theorem not_and_signBit (x : UInt64) : ~~~x &&& SIGN_BIT ≠ 0 ↔ ¬ x &&& SIGN_BIT ≠ 0 := by
  rw [and_signBit_ne_zero, and_signBit_ne_zero, UInt64.toBitVec_not, BitVec.getLsbD_not]
  simp

theorem xor_and_signBit (x : UInt64) : (x ^^^ SIGN_BIT) &&& SIGN_BIT ≠ 0 ↔ ¬ x &&& SIGN_BIT ≠ 0 := by
  rw [and_signBit_ne_zero, and_signBit_ne_zero, UInt64.toBitVec_xor, signBit_eq, BitVec.getLsbD_xor]
  simp

theorem xor_signBit_twice (x : UInt64) : x ^^^ SIGN_BIT ^^^ SIGN_BIT = x := by
  rw [UInt64.xor_assoc, UInt64.xor_self, UInt64.xor_zero]

theorem decodeScore_encodeScore (s : F64) : decodeScore (encodeScore s) = s := by
  obtain ⟨x⟩ := s
  simp only [decodeScore, encodeScore, u64OfBe_u64Be, F64.mk.injEq]
  by_cases h : x &&& SIGN_BIT ≠ 0
  · rw [if_pos h, if_neg fun hn => (not_and_signBit x).mp hn h, UInt64.not_not]
  · rw [if_neg h, if_pos ((xor_and_signBit x).mpr h), xor_signBit_twice]

theorem encodeScore_decodeScore {r : Bytes} (hr : r.length = 8) : encodeScore (decodeScore r) = r := by
  have hencode : ∀ x : UInt64, encodeScore ⟨x⟩ =
      u64Be (if x &&& SIGN_BIT ≠ 0 then ~~~x else x ^^^ SIGN_BIT) := fun _ => rfl
  by_cases h : u64OfBe r &&& SIGN_BIT ≠ 0
  · have hdecode : decodeScore r = ⟨u64OfBe r ^^^ SIGN_BIT⟩ := congrArg F64.mk (if_pos h)
    rw [hdecode, hencode, if_neg fun hn => (xor_and_signBit _).mp hn h, xor_signBit_twice, u64Be_u64OfBe hr]
  · have hdecode : decodeScore r = ⟨~~~u64OfBe r⟩ := congrArg F64.mk (if_neg h)
    rw [hdecode, hencode, if_pos ((not_and_signBit _).mpr h), UInt64.not_not, u64Be_u64OfBe hr]

/-! ## Metadata round trips -/

theorem Meta.decode_encode (m : Meta) : Meta.decode m.encode = some m := by
  have hassoc : m.encode = [m.typeId] ++ (u64Be m.version ++ (u64Be m.expireMs ++ m.payload)) := by
    simp [encode]
  have hver : slice m.encode 1 9 = u64Be m.version := by
    rw [hassoc]; exact slice_append_mid rfl (by simp)
  have hexp : slice m.encode 9 17 = u64Be m.expireMs := by
    rw [hassoc, ← List.append_assoc]; exact slice_append_mid (by simp) (by simp)
  have hpay : m.encode.drop META_HEADER_LEN = m.payload := by
    rw [hassoc, ← List.append_assoc, ← List.append_assoc]; exact List.drop_left' (by simp [META_HEADER_LEN])
  have hlen : ¬ m.encode.length < META_HEADER_LEN := by simp [encode, META_HEADER_LEN]; omega
  change (if m.encode.length < META_HEADER_LEN then none else some (Meta.mk m.typeId
    (u64OfBe (slice m.encode 1 9)) (u64OfBe (slice m.encode 9 17))
    (m.encode.drop META_HEADER_LEN))) = some m
  rw [if_neg hlen, hver, hexp, hpay, u64OfBe_u64Be, u64OfBe_u64Be]

theorem Meta.fieldCount_setFieldCount {m : Meta} (hm : m.counted) (n : UInt32) :
    (m.setFieldCount n).fieldCount = n := by
  have hc : (m.setFieldCount n).counted := hm
  have ht : (m.setFieldCount n).payload.take 4 = u32Be n := by
    rw [← length_u32Be n]; exact List.take_length
  rw [fieldCount, if_pos ⟨hc, by simp [setFieldCount]⟩, ht, u32OfBe_u32Be]

theorem Meta.listBounds_setListBounds {m : Meta} (hm : m.typeId = TYPE_LIST) (head tail : UInt64) :
    (m.setListBounds head tail).listBounds = some (head, tail) := by
  have hhead : (m.setListBounds head tail).payload.take 8 = u64Be head := by
    rw [← length_u64Be head]; exact List.take_left
  have htail : slice (m.setListBounds head tail).payload 8 16 = u64Be tail := by
    have hmid : slice (u64Be head ++ (u64Be tail ++ [])) 8 16 = u64Be tail :=
      slice_append_mid (by simp) (by simp)
    simpa [setListBounds] using hmid
  rw [listBounds, if_neg, hhead, htail, u64OfBe_u64Be, u64OfBe_u64Be]
  simp [hm, setListBounds]

end GameStore
