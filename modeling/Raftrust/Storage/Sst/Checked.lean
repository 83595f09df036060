import Raftrust.Common.Checked
import Raftrust.Storage.Sst.File

/-!
# Reading SSTables with every access checked

The reader works with offsets into the file that come from the file itself. Here its functions are
written with these offsets: every sum is checked, every slice and index is compared with the bounds,
and a remainder by zero panics. The parsers of the index and of a block compare before they read,
so that with them the checks change nothing.
-/

namespace Raftrust

open Lib

/-- The greatest length of a bit vector. The library panics when one is made longer. -/
class BitVecLimit where
  maxBits : ℕ

/-- Three bits of a machine word are not available for the length. -/
@[reducible] def BitVecLimit.usize : BitVecLimit where
  maxBits := 2 ^ 61 - 1

namespace Storage

lemma slice_of_le {data : Bytes} {start stop : ℕ} (h : start ≤ stop) (h' : stop ≤ data.length) :
    slice data start stop = .ok ((data.drop start).take (stop - start)) :=
  if_pos ⟨h, h'⟩

lemma slice_of_lt {data : Bytes} {start stop : ℕ} (h : data.length < stop) :
    slice data start stop = .error .panicked :=
  if_neg fun hle => absurd hle.2 (not_le.mpr h)

/-- A little-endian number of `w` bytes. -/
def leAt (w : ℕ) (data : Bytes) (offset : ℕ) : Except Abort ℕ := do
  let stop ← checkedAdd offset w
  let bytes ← slice data offset stop
  return fromLe bytes

lemma leAt_eq_ite {w offset : ℕ} (h : offset + w < 2 ^ 64) (data : Bytes) :
    leAt w data offset =
      if data.length < offset + w then .error .panicked
      else .ok (fromLe ((data.drop offset).take w)) := by
  rw [leAt, checkedAdd_of_lt h]
  simp only [bind, Except.bind]
  by_cases hlen : data.length < offset + w
  · rw [if_pos hlen, slice_of_lt hlen]
  · rw [if_neg hlen, slice_of_le (Nat.le_add_right _ _) (not_lt.mp hlen), Nat.add_sub_cancel_left]
    rfl

lemma leAt_of_le {w : ℕ} {data : Bytes} {offset : ℕ} (hdata : data.length < 2 ^ 64)
    (h : offset + w ≤ data.length) :
    leAt w data offset = .ok (fromLe ((data.drop offset).take w)) := by
  rw [leAt_eq_ite (h.trans_lt hdata), if_neg (not_lt.mpr h)]

/-! ### Corruption -/

section

variable {α β : Type}

/-- The computation returns, or it reports a corruption. -/
def ReportsCorruption (x : Except Abort α) : Prop :=
  ∀ a, x = .error a → ∃ msg, a = corruption msg

lemma reportsCorruption_ok (a : α) : ReportsCorruption (.ok a) := by
  rintro _ ⟨⟩

lemma reportsCorruption_error (msg : String) :
    ReportsCorruption (.error (corruption msg) : Except Abort α) := by
  rintro _ ⟨⟩
  exact ⟨msg, rfl⟩

lemma ReportsCorruption.map {x : Except Abort α} (h : ReportsCorruption x) (f : α → β) :
    ReportsCorruption (x.map f) := by
  cases x with
  | ok a => exact reportsCorruption_ok (f a)
  | error a =>
    rintro _ ⟨⟩
    exact h a rfl

lemma ReportsCorruption.safe {x : Except Abort α} (h : ReportsCorruption x) : Safe x := by
  intro hpanic
  obtain ⟨msg, hmsg⟩ := h _ hpanic
  cases hmsg

end

/-! ### Blocks -/

namespace BlockReader

/-- Read `n` entries from `offset` on. -/
def readEntriesLoop (data : Bytes) (payloadEnd : ℕ) : ℕ → ℕ → Except Abort (List BlockEntry)
  | 0, _ => .ok []
  | n + 1, offset => do
    let headerEnd ← checkedAdd offset 8
    if payloadEnd < headerEnd then .error (corruption "block entry truncated")
    else
      let keyLen ← leAt 4 data offset
      let valLenRaw ← leAt 4 data (← checkedAdd offset 4)
      let keyEnd ← checkedAdd headerEnd keyLen
      if payloadEnd < keyEnd then .error (corruption "block key truncated")
      else
        let key ← slice data headerEnd keyEnd
        if valLenRaw = tombstoneMarker then
          (readEntriesLoop data payloadEnd n keyEnd).map (⟨key, none⟩ :: ·)
        else
          let valEnd ← checkedAdd keyEnd valLenRaw
          if payloadEnd < valEnd then .error (corruption "block value truncated")
          else
            let v ← slice data keyEnd valEnd
            (readEntriesLoop data payloadEnd n valEnd).map (⟨key, some v⟩ :: ·)

def readEntriesChecked (data : Bytes) : Except Abort (List BlockEntry) :=
  if data.length < 4 then .error (corruption "block too small")
  else do
    let payloadEnd ← checkedSub data.length 4
    let numEntries ← leAt 4 data payloadEnd
    readEntriesLoop data payloadEnd numEntries 0

lemma readEntriesLoop_eq {data : Bytes} {payloadEnd : ℕ} (hdata : data.length < 2 ^ 63)
    (hend : payloadEnd ≤ data.length) (n : ℕ) {offset : ℕ} (h : offset ≤ payloadEnd) :
    readEntriesLoop data payloadEnd n offset =
      readLoop n ((data.take payloadEnd).drop offset) := by
  induction n generalizing offset with
  | zero => rfl
  | succ n ih =>
    have hfield : ∀ {i w : ℕ}, i + w ≤ payloadEnd →
        ((data.take payloadEnd).drop i).take w = (data.drop i).take w := by
      intro i w hw
      rw [List.drop_take, List.take_take, Nat.min_eq_left (by omega)]
    have hlen : ∀ i, ((data.take payloadEnd).drop i).length = payloadEnd - i := by
      intro i
      rw [List.length_drop, List.length_take, Nat.min_eq_left hend]
    have hkeyLen := fromLe_take_lt 4 (data.drop offset)
    have hvalLen := fromLe_take_lt 4 (data.drop (offset + 4))
    rw [readEntriesLoop, readLoop, checkedAdd_of_lt (by omega), hlen]
    simp only [bind, Except.bind]
    by_cases hheader : payloadEnd < offset + 8
    · rw [if_pos hheader, if_pos (by omega)]
    rw [if_neg hheader, if_neg (by omega), leAt_of_le (by omega) (by omega)]
    simp only
    rw [checkedAdd_of_lt (by omega)]
    simp only
    rw [leAt_of_le (by omega) (by omega)]
    simp only [List.drop_drop, hlen]
    rw [hfield (by omega), hfield (by omega), checkedAdd_of_lt (by omega)]
    simp only
    by_cases hkey : payloadEnd < offset + 8 + fromLe ((data.drop offset).take 4)
    · rw [if_pos hkey, if_pos (by omega)]
    rw [if_neg hkey, if_neg (by omega), slice_of_le (by omega) (by omega), Nat.add_sub_cancel_left]
    simp only
    rw [hfield (by omega)]
    split
    · rw [ih (by omega)]
    · rw [checkedAdd_of_lt (by omega)]
      simp only
      by_cases hval : payloadEnd < offset + 8 + fromLe ((data.drop offset).take 4) +
          fromLe ((data.drop (offset + 4)).take 4)
      · rw [if_pos hval, if_pos (by omega)]
      rw [if_neg hval, if_neg (by omega), slice_of_le (by omega) (by omega),
        Nat.add_sub_cancel_left]
      simp only
      rw [hfield (by omega), ih (by omega)]

lemma readEntriesChecked_eq {data : Bytes} (h : data.length < 2 ^ 63) :
    readEntriesChecked data = readEntries data := by
  rw [readEntriesChecked, readEntries]
  split
  · rfl
  · next hlen =>
    rw [checkedSub_of_le (by omega)]
    simp only [bind, Except.bind]
    rw [leAt_of_le (by omega) (by omega)]
    simp only
    rw [readEntriesLoop_eq h (Nat.sub_le _ _) _ (Nat.zero_le _), List.drop_zero,
      List.take_of_length_le (by rw [List.length_drop]; omega)]

lemma reportsCorruption_readLoop (n : ℕ) (rest : Bytes) : ReportsCorruption (readLoop n rest) := by
  induction n generalizing rest with
  | zero => exact reportsCorruption_ok []
  | succ n ih =>
    rw [readLoop]
    split
    · exact reportsCorruption_error _
    dsimp only
    split
    · exact reportsCorruption_error _
    split
    · exact (ih _).map _
    split
    · exact reportsCorruption_error _
    · exact (ih _).map _

lemma reportsCorruption_readEntries (data : Bytes) : ReportsCorruption (readEntries data) := by
  rw [readEntries]
  split
  · exact reportsCorruption_error _
  · exact reportsCorruption_readLoop _ _

lemma safe_readEntries (data : Bytes) : Safe (readEntries data) :=
  (reportsCorruption_readEntries data).safe

end BlockReader

/-! ### Bloom filters -/

namespace BloomFilter

/-- The index of a bit. Without bits it is a division by zero. -/
def getIndexChecked (f : BloomFilter) (h1 h2 : UInt64) (i : ℕ) : Except Abort ℕ :=
  if f.numBits = 0 then .error .panicked
  else .ok ((h1 + UInt64.ofNat i * h2).toNat % f.numBits)

def mayContainLoop (f : BloomFilter) (h1 h2 : UInt64) : List ℕ → Except Abort Bool
  | [] => .ok true
  | i :: is => do
    let idx ← f.getIndexChecked h1 h2 i
    let bit ← indexAt f.bits idx
    if bit then f.mayContainLoop h1 h2 is else return false

/-- Restore a filter. A vector of more bits than there can be panics. -/
def fromRawChecked [BitVecLimit] (bytes : Bytes) (numHashes numBits : ℕ) :
    Except Abort BloomFilter :=
  if BitVecLimit.maxBits < numBits then .error .panicked
  else .ok (fromRaw bytes numHashes numBits)

variable [BloomHash]

def mayContainChecked (f : BloomFilter) (key : Bytes) : Except Abort Bool :=
  let (h1, h2) := BloomHash.hashPair key
  f.mayContainLoop h1 h2 (List.range f.numHashes)

/-- Only the remainder can panic: the indices are those of bits. -/
lemma mayContainChecked_eq (f : BloomFilter) (key : Bytes) :
    f.mayContainChecked key = f.mayContain key := by
  rw [mayContainChecked, mayContain]
  by_cases hzero : f.numBits = 0
  · rcases Nat.eq_zero_or_pos f.numHashes with hnone | hpos
    · rw [if_neg (by omega), indices]
      simp only [hnone, List.range_zero]
      rfl
    · obtain ⟨n, hn⟩ := Nat.exists_eq_succ_of_ne_zero hpos.ne'
      rw [if_pos ⟨hzero, hpos⟩]
      simp only [hn, List.range_succ_eq_map, mayContainLoop, getIndexChecked, if_pos hzero]
      rfl
  · rw [if_neg fun h => hzero h.1, indices]
    generalize List.range f.numHashes = is
    dsimp only
    induction is with
    | nil => rfl
    | cons i is ih =>
      have hlt : ((BloomHash.hashPair key).1 + UInt64.ofNat i * (BloomHash.hashPair key).2).toNat %
          f.numBits < f.bits.length := by
        rw [f.length_bits]
        exact Nat.mod_lt _ (Nat.pos_of_ne_zero hzero)
      rw [mayContainLoop, getIndexChecked, if_neg hzero]
      simp only [bind, Except.bind]
      rw [indexAt_of_getElem? (List.getElem?_eq_getElem hlt)]
      simp only [List.map_cons, List.all_cons, List.getElem?_eq_getElem hlt, Option.getD_some]
      cases f.bits[((BloomHash.hashPair key).1 +
          UInt64.ofNat i * (BloomHash.hashPair key).2).toNat % f.numBits] with
      | true => simpa using ih
      | false => rfl

end BloomFilter

/-! ### Files -/

namespace SSTableReader

/-- Parse `n` index entries from `offset` on. -/
def parseIndexLoop (data : Bytes) : ℕ → ℕ → Except Abort (List IndexEntry)
  | 0, _ => .ok []
  | n + 1, offset => do
    let lenEnd ← checkedAdd offset 4
    if data.length < lenEnd then .error (corruption "index entry truncated")
    else
      let keyLen ← leAt 4 data offset
      let keyEnd ← checkedAdd lenEnd keyLen
      let entryEnd ← checkedAdd keyEnd 16
      if data.length < entryEnd then .error (corruption "index entry truncated")
      else
        let firstKey ← slice data lenEnd keyEnd
        let blockOffset ← leAt 8 data keyEnd
        let offsetEnd ← checkedAdd keyEnd 8
        let blockSize ← leAt 8 data offsetEnd
        (parseIndexLoop data n (← checkedAdd offsetEnd 8)).map
          (⟨firstKey, blockOffset, blockSize⟩ :: ·)

def parseIndexChecked (data : Bytes) : Except Abort (List IndexEntry) :=
  if data.length < 4 then .error (corruption "index block too small")
  else do
    let numEntries ← leAt 4 data 0
    parseIndexLoop data numEntries 4

def parseBloomChecked [BitVecLimit] (data : Bytes) (numHashes : ℕ) :
    Except Abort BloomFilter :=
  if data.length < 8 then .error (corruption "bloom block too small")
  else do
    let numBits ← leAt 8 data 0
    let bloomBytes ← slice data 8 data.length
    BloomFilter.fromRawChecked bloomBytes numHashes numBits

def readSectionChecked (data : Bytes) (offset size : ℕ) (msg : String) : Except Abort Bytes := do
  let stop ← checkedAdd offset size
  if data.length < stop then .error (corruption msg) else slice data offset stop

def openChecked [BitVecLimit] (data : Bytes) : Except Abort SSTableReader := do
  let footer ← readFooter data
  let indexData ← readSectionChecked data footer.indexOffset footer.indexSize
    "index extends past file"
  let index ← parseIndexChecked indexData
  let bloomData ← readSectionChecked data footer.bloomOffset footer.bloomSize
    "bloom filter extends past file"
  let bloom ← parseBloomChecked bloomData footer.bloomNumHashes
  return ⟨data, index, bloom⟩

def readBlockChecked (data : Bytes) (e : IndexEntry) : Except Abort (List BlockEntry) := do
  let stop ← checkedAdd e.offset e.size
  let blockData ← slice data e.offset stop
  BlockReader.readEntriesChecked blockData

def getChecked [BloomHash] (r : SSTableReader) (key : Bytes) :
    Except Abort (Option (Option Bytes)) := do
  if ← r.bloom.mayContainChecked key then
    let blockIdx := findBlock r.index key
    if r.index.length ≤ blockIdx then return none
    else
      let entry ← indexAt r.index blockIdx
      let entries ← readBlockChecked r.data entry
      match BlockReader.search entries key with
      | some idx => return some (← indexAt entries idx).value
      | none => return none
  else return none

def iterChecked (r : SSTableReader) : Except Abort (List BlockEntry) := do
  return (← r.index.mapM (readBlockChecked r.data)).flatten

def scanChecked (r : SSTableReader) (start stop : Bytes) : Except Abort (List BlockEntry) := do
  return scanLoop start stop (← r.iterChecked)

/-! ### Parsing -/

lemma parseIndexLoop_eq {data : Bytes} (hdata : data.length < 2 ^ 63) (n : ℕ) {offset : ℕ}
    (h : offset ≤ data.length) : parseIndexLoop data n offset = parseLoop n (data.drop offset) := by
  induction n generalizing offset with
  | zero => rfl
  | succ n ih =>
    have hkeyLen : fromLe ((data.drop offset).take 4) < 2 ^ 32 :=
      (fromLe_lt _).trans_le
        ((Nat.pow_le_pow_right (by decide) (List.length_take_le 4 _)).trans (by decide))
    rw [parseIndexLoop, parseLoop, checkedAdd_of_lt (by omega), List.length_drop]
    simp only [bind, Except.bind]
    by_cases hlen : data.length < offset + 4
    · rw [if_pos hlen, if_pos (by omega)]
    rw [if_neg hlen, if_neg (by omega), leAt_of_le (by omega) (by omega)]
    simp only [List.drop_drop, List.length_drop]
    rw [checkedAdd_of_lt (by omega)]
    simp only
    rw [checkedAdd_of_lt (by omega)]
    simp only
    by_cases hentry : data.length < offset + 4 + fromLe ((data.drop offset).take 4) + 16
    · rw [if_pos hentry, if_pos (by omega)]
    rw [if_neg hentry, if_neg (by omega), slice_of_le (by omega) (by omega),
      Nat.add_sub_cancel_left]
    simp only
    rw [leAt_of_le (by omega) (by omega), checkedAdd_of_lt (by omega)]
    simp only
    rw [leAt_of_le (by omega) (by omega), checkedAdd_of_lt (by omega)]
    simp only
    rw [ih (by omega)]

lemma parseIndexChecked_eq {data : Bytes} (h : data.length < 2 ^ 63) :
    parseIndexChecked data = parseIndex data := by
  rw [parseIndexChecked, parseIndex]
  split
  · rfl
  · next hlen =>
    rw [leAt_of_le (by omega) (by omega)]
    simp only [bind, Except.bind, List.drop_zero]
    rw [parseIndexLoop_eq h _ (by omega)]

lemma reportsCorruption_parseLoop (n : ℕ) (rest : Bytes) :
    ReportsCorruption (parseLoop n rest) := by
  induction n generalizing rest with
  | zero => exact reportsCorruption_ok []
  | succ n ih =>
    rw [parseLoop]
    split
    · exact reportsCorruption_error _
    dsimp only
    split
    · exact reportsCorruption_error _
    · exact (ih _).map _

lemma reportsCorruption_parseIndex (data : Bytes) : ReportsCorruption (parseIndex data) := by
  rw [parseIndex]
  split
  · exact reportsCorruption_error _
  · exact reportsCorruption_parseLoop _ _

lemma safe_parseIndex (data : Bytes) : Safe (parseIndex data) :=
  (reportsCorruption_parseIndex data).safe

end SSTableReader

end Storage

end Raftrust
