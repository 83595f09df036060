import Raftrust.Common.Types

/-!
# Records of the write-ahead log

On disk a record is `[crc32: 4 bytes LE][len: 4 bytes LE][data: len bytes]`; the checksum covers
the length bytes and the data. The checksum function comes from a library and is a parameter.
-/

namespace Raftrust

open Lib

/-- The 32-bit checksum of a byte string. -/
class Crc32 where
  hash : Bytes → UInt32

/-- One step of the bitwise CRC-32 division, with the polynomial reflected. -/
def Crc32.shift (c : UInt32) : UInt32 :=
  if c &&& 1 = 1 then (c >>> 1) ^^^ 0xEDB88320 else c >>> 1

/-- The CRC-32 of the library, for running the model on concrete input. -/
@[reducible] def Crc32.ieee : Crc32 where
  hash bs :=
    ~~~ bs.foldl (fun c b => Nat.iterate Crc32.shift 8 (c ^^^ UInt32.ofNat b.val)) 0xFFFFFFFF

example : Crc32.ieee.hash [0x31, 0x32, 0x33, 0x34, 0x35, 0x36, 0x37, 0x38, 0x39] =
    0xCBF43926 := by decide +kernel

namespace Storage

def headerSize : ℕ := 8

/-- Records longer than this are refused when read. -/
def maxRecordLen : ℕ := 64 * 1024 * 1024

structure WalRecord where
  data : Bytes
  deriving DecidableEq, Repr

namespace WalRecord

variable [Crc32]

def computeCrc (data : Bytes) : UInt32 :=
  Crc32.hash (toLe 4 data.length ++ data)

/-- The bytes written for a record. The length is cut to 32 bits. -/
def encode (r : WalRecord) : Bytes :=
  toLe 4 (computeCrc r.data).toNat ++ toLe 4 r.data.length ++ r.data

/-- Read one record and return it with the bytes after it; `none` at the end of the input, also
when the header is incomplete. -/
def decode (r : Bytes) : Except Error (Option (WalRecord × Bytes)) :=
  if r.length < headerSize then .ok none
  else
    let storedCrc := fromLe (r.take 4)
    let len := fromLe ((r.drop 4).take 4)
    if maxRecordLen < len then
      .error (.corruption s!"WAL record length {len} exceeds maximum")
    else
      let rest := r.drop headerSize
      if rest.length < len then
        .error (.corruption "WAL record truncated: incomplete data")
      else
        let data := rest.take len
        let computedCrc := (computeCrc data).toNat
        if storedCrc ≠ computedCrc then
          .error (.corruption
            s!"WAL CRC mismatch: stored={hex32 storedCrc}, computed={hex32 computedCrc}")
        else .ok (some (⟨data⟩, rest.drop len))

lemma encode_length (r : WalRecord) : r.encode.length = headerSize + r.data.length := by
  simp [encode, headerSize]
  omega

lemma take_four_encode (r : WalRecord) (rest : Bytes) :
    (r.encode ++ rest).take 4 = toLe 4 (computeCrc r.data).toNat := by
  have h : (toLe 4 (computeCrc r.data).toNat).length = 4 := toLe_length _ _
  simp only [encode, List.append_assoc]
  rw [List.take_append_of_le_length h.ge, List.take_of_length_le h.le]

lemma len_encode (r : WalRecord) (rest : Bytes) :
    ((r.encode ++ rest).drop 4).take 4 = toLe 4 r.data.length := by
  have h : (toLe 4 (computeCrc r.data).toNat).length = 4 := toLe_length _ _
  have h' : (toLe 4 r.data.length).length = 4 := toLe_length _ _
  simp only [encode, List.append_assoc]
  rw [List.drop_append_of_le_length h.ge, List.drop_of_length_le h.le, List.nil_append,
    List.take_append_of_le_length h'.ge, List.take_of_length_le h'.le]

lemma drop_header_encode (r : WalRecord) (rest : Bytes) :
    (r.encode ++ rest).drop headerSize = r.data ++ rest := by
  have h : (toLe 4 (computeCrc r.data).toNat ++ toLe 4 r.data.length).length = headerSize := by
    simp [headerSize]
  rw [encode, List.append_assoc, List.drop_append_of_le_length h.ge, List.drop_of_length_le h.le,
    List.nil_append]

/-- A record of allowed length is read back from the front of the input. -/
theorem decode_encode_append (r : WalRecord) (rest : Bytes)
    (h : r.data.length ≤ maxRecordLen) :
    decode (r.encode ++ rest) = .ok (some (r, rest)) := by
  have hlen : fromLe (toLe 4 r.data.length) = r.data.length :=
    fromLe_toLe (h.trans_lt (by decide))
  have hcrc : fromLe (toLe 4 (computeCrc r.data).toNat) = (computeCrc r.data).toNat :=
    fromLe_toLe (by simpa using (computeCrc r.data).toNat_lt)
  have hge : ¬ (r.encode ++ rest).length < headerSize := by
    rw [List.length_append, encode_length]
    omega
  simp only [decode, if_neg hge, take_four_encode, len_encode, drop_header_encode, hlen, hcrc]
  rw [if_neg (by omega), if_neg (by simp), List.take_append_of_le_length le_rfl, List.take_length,
    if_neg (by simp), List.drop_append_of_le_length le_rfl, List.drop_length, List.nil_append]

/-- A proper prefix of a record is never taken for a record. -/
theorem decode_take_encode (r : WalRecord) (h : r.data.length ≤ maxRecordLen) {k : ℕ}
    (hk : k < r.encode.length) :
    decode (r.encode.take k) = .ok none ∨
      ∃ msg, decode (r.encode.take k) = .error (.corruption msg) := by
  have hlen : (r.encode.take k).length = k := by simp; omega
  by_cases hk8 : k < headerSize
  · left
    simp [decode, hlen, hk8]
  · right
    -- the header is complete, so the length field is the record's and the data fall short of it
    have h8 : 8 ≤ k := by simpa [headerSize] using hk8
    have hfield : ((r.encode.take k).drop 4).take 4 = toLe 4 r.data.length := by
      rw [List.drop_take, List.take_take, min_eq_left (by omega)]
      simpa using len_encode r []
    have hfit : fromLe (toLe 4 r.data.length) = r.data.length :=
      fromLe_toLe (h.trans_lt (by decide))
    have hshort : ((r.encode.take k).drop headerSize).length < r.data.length := by
      rw [encode_length] at hk
      rw [List.length_drop, hlen]
      omega
    refine ⟨"WAL record truncated: incomplete data", ?_⟩
    simp only [decode, hlen, if_neg hk8, hfield, hfit]
    rw [if_neg (by omega), if_pos hshort]

/-- What is read back was on disk as this record, and the rest follows it. -/
theorem encode_of_decode {f rest : Bytes} {r : WalRecord}
    (h : decode f = .ok (some (r, rest))) :
    f = r.encode ++ rest ∧ r.data.length ≤ maxRecordLen := by
  simp only [decode] at h
  split_ifs at h with h1 h2 h3 h4
  · simp at h
  injection h with h
  injection h with h
  injection h with hr hrest
  subst hr hrest
  simp only [headerSize] at h1 h3 h4 ⊢
  have hdata : ((f.drop 8).take (fromLe ((f.drop 4).take 4))).length
      = fromLe ((f.drop 4).take 4) := by
    rw [List.length_take]
    omega
  refine ⟨?_, by simpa [hdata] using not_lt.mp h2⟩
  have hcrc : (f.take 4).length = 4 := by simp; omega
  have hlen : ((f.drop 4).take 4).length = 4 := by simp; omega
  have hw := toLe_fromLe (f.take 4)
  have hw' := toLe_fromLe ((f.drop 4).take 4)
  rw [hcrc] at hw
  rw [hlen] at hw'
  rw [not_not] at h4
  simp only [encode]
  rw [← h4, hw, hdata, hw', List.append_assoc, List.append_assoc, List.take_append_drop]
  conv_lhs => rw [← List.take_append_drop 4 f, ← List.take_append_drop 4 (f.drop 4),
    List.drop_drop]

end WalRecord

end Storage

end Raftrust
