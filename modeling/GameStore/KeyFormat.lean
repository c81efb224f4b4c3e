import GameStore.Engine

/-!
# The key format is unambiguous

A record of a versioned family says whose it is: it parses to the owner, the version and
the rest it was laid out from, and the prefix of an incarnation is one of exactly that
incarnation's records. Keys of `2^32` bytes and more are outside of this, since their length
is truncated.
-/

namespace GameStore

open Lib

theorem versionedPrefix_prefix_iff {family : UInt8} {k : Bytes} (hk : k.length < 2 ^ 32) (v : UInt64)
    (r : Bytes) :
    versionedPrefix family k v <+: r ↔ ∃ rest, parseVersioned r family = some (k, v, rest) := by
  constructor
  · rintro ⟨rest, rfl⟩
    exact ⟨rest, parseVersioned_append hk v rest⟩
  · rintro ⟨rest, h⟩
    exact ⟨rest, (parseVersioned_eq_some.mp h).2.symm⟩

theorem parseVersioned_metaKey {family : UInt8} (h : family ≠ META_PREFIX) (k : Bytes) :
    parseVersioned (metaKey k) family = none := by
  rw [parseVersioned, if_pos]
  left
  exact fun heq => h (Option.some.inj heq).symm

/-- `pre` stands at the front of the family's records of owner `k` and version `v` and of no
other, so that a scan of it finds these, in the order of what follows. -/
structure PrefixExact (pre : Bytes) (family : UInt8) (k : Bytes) (v : UInt64) : Prop where
  parses : ∀ r, pre <+: r ↔ ∃ rest, parseVersioned r family = some (k, v, rest)
  scanned : ∀ (w : World) r x, (r, x) ∈ (exec (.scanPrefix pre) w).1 ↔
    w.disk[r]? = some x ∧ ∃ rest, parseVersioned r family = some (k, v, rest)
  ordered : ∀ w : World, (exec (.scanPrefix pre) w).1.Pairwise fun a b => ∀ rest rest',
    parseVersioned a.1 family = some (k, v, rest) → parseVersioned b.1 family = some (k, v, rest') →
      compare rest rest' = .lt

theorem prefixExact_versionedPrefix (family : UInt8) {k : Bytes} (hk : k.length < 2 ^ 32) (v : UInt64) :
    PrefixExact (versionedPrefix family k v) family k v where
  parses := versionedPrefix_prefix_iff hk v
  scanned w r x := by
    rw [← versionedPrefix_prefix_iff hk]
    exact mem_prefixScan
  ordered w := by
    refine (prefixScan_sorted w.disk _).imp fun {a b} hab rest rest' ha hb => ?_
    rwa [(parseVersioned_eq_some.mp ha).2, (parseVersioned_eq_some.mp hb).2, compare_append_left] at hab

/-- For every key shorter than `2^32` bytes: records parse to what they were laid out from;
whatever parses is laid out so, and metadata keys never parse; and the prefixes of the two
families are exact. -/
theorem key_format_exact (k : Bytes) (hk : k.length < 2 ^ 32) (v : UInt64) :
    ((∀ field, parseSubkey (subkey k v field) = some (k, v, field) ∧
        parseOwnerVersion (subkey k v field) = some (k, v)) ∧
      ∀ score member, parseOwnerVersion (zscoreKey k v score member) = some (k, v)) ∧
    ((∀ r k' v' field, parseSubkey r = some (k', v', field) → subkey k' v' field = r) ∧
      ∀ userKey, parseSubkey (metaKey userKey) = none ∧
        parseVersioned (metaKey userKey) ZSCORE_PREFIX = none ∧ parseOwnerVersion (metaKey userKey) = none) ∧
    PrefixExact (subkeyPrefix k v) SUBKEY_PREFIX k v ∧ PrefixExact (zscorePrefix k v) ZSCORE_PREFIX k v := by
  refine ⟨⟨fun field => ⟨?_, ?_⟩, fun score member => ?_⟩, ⟨fun r k' v' field h => ?_, fun userKey => ?_⟩, ?_, ?_⟩
  · exact parseVersioned_append hk v field
  · exact parseOwnerVersion_subkey hk v field
  · exact parseOwnerVersion_zscoreKey hk v score member
  · exact (parseVersioned_eq_some.mp h).2.symm
  · exact ⟨parseVersioned_metaKey (by decide) userKey, parseVersioned_metaKey (by decide) userKey, rfl⟩
  · exact prefixExact_versionedPrefix SUBKEY_PREFIX hk v
  · exact prefixExact_versionedPrefix ZSCORE_PREFIX hk v

theorem key_format_exact_player :
    parseSubkey (subkey [112] 7 [104, 112]) = some ([112], 7, [104, 112]) ∧
      PrefixExact (subkeyPrefix [112] 7) SUBKEY_PREFIX [112] 7 := by
  have hexact := key_format_exact [112] (by decide) 7
  exact ⟨(hexact.1.1 [104, 112]).1, hexact.2.2.1⟩

end GameStore
