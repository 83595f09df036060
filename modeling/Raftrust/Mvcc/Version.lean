import Raftrust.Common.Types

/-!
# Versioned keys and values

An internal key is the user key followed by the bitwise inverted revision in eight big-endian
bytes, so that of the versions of one key the newest sorts first. Versions of a key are looked up
in the range between the key with all-zero suffix and the incremented key with all-zero suffix.
-/

namespace Raftrust.Mvcc

open Lib

def revisionSuffixLen : ℕ := 8

def u64Max : ℕ := 2 ^ 64 - 1

/-! ### Keys -/

def encodeKey (userKey : Bytes) (revision : ℕ) : Bytes :=
  userKey ++ toBe revisionSuffixLen (u64Max - revision)

/-- Split an internal key. One that is shorter than the suffix panics. -/
def decodeKey (encoded : Bytes) : Except Abort (Bytes × ℕ) :=
  if encoded.length < revisionSuffixLen then .error .panicked
  else
    let split := encoded.length - revisionSuffixLen
    .ok (encoded.take split, u64Max - fromBe (encoded.drop split))

def encodeKeyPrefixStart (userKey : Bytes) : Bytes :=
  encodeKey userKey u64Max

/-- The loop of the increment over the bytes from the last to the first. -/
def carry : Bytes → Bytes
  | [] => [1]
  | b :: bs => if b < 255 then (b + 1) :: bs else 0 :: carry bs

/-- Increment a byte string as a big-endian number. It grows if all its bytes are `0xFF`. -/
def incrementBytes (bytes : Bytes) : Bytes :=
  (carry bytes.reverse).reverse

def encodeKeyPrefixEnd (userKey : Bytes) : Bytes :=
  incrementBytes userKey ++ List.replicate revisionSuffixLen 0

example : encodeKeyPrefixEnd [0x61, 0xFF] = [0x62, 0, 0, 0, 0, 0, 0, 0, 0, 0] := by decide

lemma encodeKey_length (k : Bytes) (rev : ℕ) :
    (encodeKey k rev).length = k.length + revisionSuffixLen := by
  simp [encodeKey]

lemma decodeKey_encodeKey (k : Bytes) {rev : ℕ} (h : rev < 2 ^ 64) :
    decodeKey (encodeKey k rev) = .ok (k, rev) := by
  have hsplit : (encodeKey k rev).length - revisionSuffixLen = k.length := by
    simp [encodeKey_length]
  have hrev : fromBe (toBe revisionSuffixLen (u64Max - rev)) = u64Max - rev :=
    fromBe_toBe (by simp [revisionSuffixLen, u64Max]; omega)
  have hlen : ¬ (encodeKey k rev).length < revisionSuffixLen := by simp [encodeKey_length]
  have hle : rev ≤ u64Max := by
    simp only [u64Max]
    omega
  simp only [decodeKey, if_neg hlen, hsplit]
  rw [encodeKey, List.take_left, List.drop_left, hrev, Nat.sub_sub_self hle]

/-- Of two versions of a key the newer one sorts first. -/
lemma encodeKey_lt_encodeKey_iff (k : Bytes) {i j : ℕ} (hi : i < 2 ^ 64) (hj : j < 2 ^ 64) :
    encodeKey k i < encodeKey k j ↔ j < i := by
  have hbound : ∀ n, u64Max - n < 256 ^ revisionSuffixLen := by
    intro n
    simp only [u64Max, revisionSuffixLen]
    omega
  rw [encodeKey, encodeKey, append_lt_append_iff rfl, toBe_lt_toBe_iff (hbound i) (hbound j)]
  simp only [lt_irrefl, true_and, false_or, u64Max]
  omega

lemma encodeKey_inj {k k' : Bytes} {i j : ℕ} (hi : i < 2 ^ 64) (hj : j < 2 ^ 64)
    (h : encodeKey k i = encodeKey k' j) : k = k' ∧ i = j := by
  have hdec := congrArg decodeKey h
  rw [decodeKey_encodeKey k hi, decodeKey_encodeKey k' hj] at hdec
  simpa using hdec

/-! ### Values -/

structure VersionedValue where
  /-- No value is a delete marker. -/
  value : Option Bytes
  createRevision : ℕ
  modRevision : ℕ
  leaseId : Int64
  ttlSeconds : Int64
  deriving DecidableEq, Repr

namespace VersionedValue

/-- The eight bytes of a signed number. -/
def encodeI64 (n : Int64) : Bytes :=
  toLe 8 n.toUInt64.toNat

def decodeI64 (bs : Bytes) : Int64 :=
  (UInt64.ofNat (fromLe bs)).toInt64

def encodeFields (v : VersionedValue) : Bytes :=
  toLe 8 v.createRevision ++ toLe 8 v.modRevision ++ encodeI64 v.leaseId ++ encodeI64 v.ttlSeconds

def encode (v : VersionedValue) : Bytes :=
  match v.value with
  | some value => 1 :: toLe 4 value.length ++ value ++ v.encodeFields
  | none => 2 :: v.encodeFields

/-- Decode the numbers behind the value. Slices that leave the input panic. -/
def decodeFields (value : Option Bytes) (data : Bytes) : Except Abort VersionedValue :=
  if data.length < 32 then .error .panicked
  else .ok {
    value := value
    createRevision := fromLe (data.take 8)
    modRevision := fromLe ((data.drop 8).take 8)
    leaseId := decodeI64 ((data.drop 16).take 8)
    ttlSeconds := decodeI64 ((data.drop 24).take 8) }

def decode : Bytes → Except Abort VersionedValue
  | [] => .error .panicked
  | tag :: data =>
    if tag = 1 then
      let len := fromLe (data.take 4)
      if data.length < 4 + len then .error .panicked
      else decodeFields (some ((data.drop 4).take len)) ((data.drop 4).drop len)
    else decodeFields none data

/-- The lengths and revisions that the encoding has room for. -/
structure Fits (v : VersionedValue) : Prop where
  value : ∀ value ∈ v.value, value.length < 2 ^ 32
  createRevision : v.createRevision < 2 ^ 64
  modRevision : v.modRevision < 2 ^ 64

lemma decodeI64_encodeI64 (n : Int64) : decodeI64 (encodeI64 n) = n := by
  rw [decodeI64, encodeI64, fromLe_toLe n.toUInt64.toNat_lt]
  simp

lemma encodeFields_length (v : VersionedValue) : v.encodeFields.length = 32 := by
  simp [encodeFields, encodeI64]

/-- The version with its revisions cut to eight bytes. -/
def wrap (v : VersionedValue) : VersionedValue :=
  { v with createRevision := v.createRevision % 2 ^ 64, modRevision := v.modRevision % 2 ^ 64 }

lemma wrap_of_fits {v : VersionedValue} (h : v.Fits) : v.wrap = v := by
  rw [wrap, Nat.mod_eq_of_lt h.createRevision, Nat.mod_eq_of_lt h.modRevision]

lemma decodeFields_encodeFields (v : VersionedValue) :
    decodeFields v.value v.encodeFields = .ok v.wrap := by
  have hlen : ¬ v.encodeFields.length < 32 := by simp [encodeFields_length]
  have htake : v.encodeFields.take 8 = toLe 8 v.createRevision := by
    simp [encodeFields]
  have hmod : (v.encodeFields.drop 8).take 8 = toLe 8 v.modRevision := by
    simp [encodeFields]
  have hlease : (v.encodeFields.drop 16).take 8 = encodeI64 v.leaseId := by
    simp [encodeFields, encodeI64, List.take_append, List.drop_append]
  have httl : (v.encodeFields.drop 24).take 8 = encodeI64 v.ttlSeconds := by
    simp [encodeFields, encodeI64, List.drop_append, List.drop_of_length_le,
      List.take_of_length_le]
  rw [decodeFields, if_neg hlen, htake, hmod, hlease, httl, fromLe_toLe_mod, fromLe_toLe_mod,
    decodeI64_encodeI64, decodeI64_encodeI64]
  rfl

/-- Versions with a value that fits are read back, up to the size of their revisions. -/
lemma decode_encode_wrap {v : VersionedValue} (h : ∀ value ∈ v.value, value.length < 2 ^ 32) :
    decode v.encode = .ok v.wrap := by
  have hfields := decodeFields_encodeFields v
  cases hvalue : v.value with
  | none =>
    rw [encode, hvalue, decode, if_neg (by decide), ← hvalue]
    exact hfields
  | some value =>
    have hlen : fromLe (toLe 4 value.length) = value.length := fromLe_toLe (h value hvalue)
    have hge : ¬ (toLe 4 value.length ++ value ++ v.encodeFields).length < 4 + value.length := by
      simp
    have hdata : (toLe 4 value.length ++ value ++ v.encodeFields).take 4 = toLe 4 value.length := by
      simp
    have hrest : (toLe 4 value.length ++ value ++ v.encodeFields).drop 4 =
        value ++ v.encodeFields := by
      simp
    rw [encode, hvalue]
    simp only [List.cons_append, decode, if_true, hdata, hlen, if_neg hge, hrest, List.take_left,
      List.drop_left]
    rw [← hvalue]
    exact hfields

/-- Values that fit are read back. -/
lemma decode_encode {v : VersionedValue} (h : v.Fits) : decode v.encode = .ok v := by
  rw [decode_encode_wrap h.value, wrap_of_fits h]

lemma createRevision_lt_of_decode {data : Bytes} {v : VersionedValue} (h : decode data = .ok v) :
    v.createRevision < 2 ^ 64 := by
  have hfields : ∀ {value data}, decodeFields value data = .ok v → v.createRevision < 2 ^ 64 := by
    intro value data h
    rw [decodeFields] at h
    split at h
    · cases h
    · obtain rfl := Except.ok.inj h
      exact fromLe_take_lt 8 data
  cases data with
  | nil => cases h
  | cons tag data =>
    rw [decode] at h
    split at h
    · dsimp only at h
      split at h
      · cases h
      · exact hfields h
    · exact hfields h

end VersionedValue

end Raftrust.Mvcc
