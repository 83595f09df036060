import Raftrust.Common.Types
import Raftrust.Lib.SipHash

/-!
# Bloom filters

A bit array in which every inserted key sets a number of bits that are computed from two hashes of
it. A key of which one bit is not set was not inserted. The hash function and the floating-point
formulas for the size of a filter come from libraries and are parameters.
-/

namespace Raftrust

open Lib

/-- The hashes of a key, and the results of the sizing formulas for the false positive rate of
0.01: the number of bits for a number of expected items, and the number of hashes for both. -/
class BloomHash where
  hashPair : Bytes → UInt64 × UInt64
  optimalBits : ℕ → UInt64
  optimalHashes : ℕ → ℕ → UInt32

/-- The library's hasher, SipHash-1-3 over the length and the bytes of the key, and the formulas
`⌈-n * ln 0.01 / (ln 2)²⌉` and `round (m / n * ln 2)` with decimal logarithms, for running the
model on concrete input. -/
@[reducible] def BloomHash.sip : BloomHash where
  hashPair key :=
    let msg := toLe 8 key.length ++ key
    (SipHash.hash 1 3 0 0 msg, SipHash.hash 1 3 0 0 (msg ++ toLe 8 0xDEADBEEF))
  optimalBits n := UInt64.ofNat ((n * 46051701859880914 + 4804530139182013) / 4804530139182014)
  optimalHashes m n :=
    UInt32.ofNat ((2 * m * 6931471805599453 + n * 10 ^ 16) / (2 * n * 10 ^ 16))

namespace Storage

/-- Set the bits with the given indices. -/
def setBits (bits : List Bool) (is : List ℕ) : List Bool :=
  is.foldl (fun bits i => bits.set i true) bits

lemma length_setBits (is : List ℕ) (bits : List Bool) : (setBits bits is).length = bits.length := by
  induction is generalizing bits with
  | nil => rfl
  | cons i is ih => exact (ih (bits.set i true)).trans (by simp)

lemma getElem?_setBits {is : List ℕ} {bits : List Bool} {j : ℕ}
    (h : bits[j]? = some true ∨ j ∈ is ∧ j < bits.length) :
    (setBits bits is)[j]? = some true := by
  induction is generalizing bits with
  | nil => simpa [setBits] using h
  | cons i is ih =>
    have hset : setBits bits (i :: is) = setBits (bits.set i true) is := rfl
    rw [hset]
    apply ih
    rw [List.length_set, List.getElem?_set]
    by_cases hij : i = j
    · subst hij
      have hlt : i < bits.length := by
        rcases h with h | h
        · exact (List.getElem?_eq_some_iff.mp h).1
        · exact h.2
      exact .inl (by simp [hlt])
    · rw [if_neg hij]
      simpa [Ne.symm hij] using h

structure BloomFilter where
  bits : List Bool
  numHashes : ℕ
  numBits : ℕ
  length_bits : bits.length = numBits
  deriving DecidableEq, Repr

namespace BloomFilter

/-- A filter without keys. -/
def empty (numBits numHashes : ℕ) : BloomFilter where
  bits := List.replicate numBits false
  numHashes := numHashes
  numBits := numBits
  length_bits := List.length_replicate

section

variable [BloomHash]

/-- A filter for the expected number of items. -/
def new (expectedItems : ℕ) : BloomFilter :=
  let expectedItems := max expectedItems 1
  let numBits := max (BloomHash.optimalBits expectedItems).toNat 8
  { bits := List.replicate numBits false
    numHashes := max (BloomHash.optimalHashes numBits expectedItems).toNat 1
    numBits := numBits
    length_bits := List.length_replicate }

/-- The bits of a key. -/
def indices (f : BloomFilter) (key : Bytes) : List ℕ :=
  let (h1, h2) := BloomHash.hashPair key
  (List.range f.numHashes).map fun i => (h1 + UInt64.ofNat i * h2).toNat % f.numBits

def insert (f : BloomFilter) (key : Bytes) : BloomFilter :=
  { f with
    bits := setBits f.bits (f.indices key)
    length_bits := (length_setBits _ _).trans f.length_bits }

/-- Whether a key may have been inserted. Without bits the index is a division by zero. -/
def mayContain (f : BloomFilter) (key : Bytes) : Except Abort Bool :=
  if f.numBits = 0 ∧ 0 < f.numHashes then .error .panicked
  else .ok ((f.indices key).all fun i => f.bits[i]?.getD false)

end

/-- Restore a filter from its bytes. Missing bits are zero. -/
def fromRaw (bytes : Bytes) (numHashes numBits : ℕ) : BloomFilter where
  bits := ((unpackBits bytes).take numBits).rightpad numBits false
  numHashes := numHashes
  numBits := numBits
  length_bits := by
    rw [List.length_rightpad, List.length_take]
    omega

def asBytes (f : BloomFilter) : Bytes :=
  packBits f.bits

lemma fromRaw_asBytes (f : BloomFilter) : fromRaw f.asBytes f.numHashes f.numBits = f := by
  obtain ⟨n, hn⟩ := unpackBits_packBits f.bits
  have hbits : ((unpackBits f.asBytes).take f.numBits).rightpad f.numBits false = f.bits := by
    rw [asBytes, hn, ← f.length_bits, List.take_left, List.rightpad, Nat.sub_self,
      List.replicate_zero, List.append_nil]
  obtain ⟨bits, numHashes, numBits, rfl⟩ := f
  simpa [fromRaw] using hbits

/-! ### No false negatives -/

variable [BloomHash] {f : BloomFilter}

/-- All bits of the key are set. -/
def Marks (f : BloomFilter) (key : Bytes) : Prop :=
  ∀ i ∈ f.indices key, f.bits[i]? = some true

lemma new_numBits_pos (n : ℕ) : 0 < (new n).numBits :=
  Nat.lt_of_lt_of_le (by decide) (Nat.le_max_right _ 8)

lemma Marks.insert {key : Bytes} (h : f.Marks key) (key' : Bytes) : (f.insert key').Marks key :=
  fun i hi => getElem?_setBits (.inl (h i hi))

lemma marks_insert_self (hpos : 0 < f.numBits) (key : Bytes) : (f.insert key).Marks key := by
  intro i hi
  refine getElem?_setBits (.inr ⟨hi, ?_⟩)
  rw [f.length_bits]
  obtain ⟨j, -, rfl⟩ := List.mem_map.mp hi
  exact Nat.mod_lt _ hpos

/-- Every key of a list is marked when all have been inserted. -/
lemma marks_foldl_insert {keys : List Bytes} (hpos : 0 < f.numBits) {key : Bytes}
    (h : f.Marks key ∨ key ∈ keys) : (keys.foldl insert f).Marks key := by
  induction keys generalizing f with
  | nil => simpa using h
  | cons k keys ih =>
    refine ih (f := f.insert k) hpos ?_
    rcases h with h | h
    · exact .inl (h.insert k)
    · rcases List.mem_cons.mp h with rfl | h
      · exact .inl (marks_insert_self hpos key)
      · exact .inr h

lemma foldl_insert_numBits (keys : List Bytes) (f : BloomFilter) :
    (keys.foldl insert f).numBits = f.numBits := by
  induction keys generalizing f with
  | nil => rfl
  | cons k keys ih => exact ih (f.insert k)

lemma foldl_insert_numHashes (keys : List Bytes) (f : BloomFilter) :
    (keys.foldl insert f).numHashes = f.numHashes := by
  induction keys generalizing f with
  | nil => rfl
  | cons k keys ih => exact ih (f.insert k)

/-- A filter with bits answers, and never denies a key whose bits are set. -/
lemma mayContain_cases (hpos : 0 < f.numBits) (key : Bytes) :
    f.mayContain key = .ok true ∨ f.mayContain key = .ok false ∧ ¬f.Marks key := by
  rw [mayContain, if_neg fun h => hpos.ne' h.1]
  cases hall : (f.indices key).all fun i => f.bits[i]?.getD false with
  | true => exact .inl rfl
  | false =>
    refine .inr ⟨rfl, fun hmarks => ?_⟩
    have htrue : ((f.indices key).all fun i => f.bits[i]?.getD false) = true :=
      List.all_eq_true.mpr fun i hi => by rw [hmarks i hi]; rfl
    rw [htrue] at hall
    exact Bool.noConfusion hall

end BloomFilter

end Storage

end Raftrust
