import Mathlib.Data.List.TakeWhile
import Raftrust.Storage.Wal.File

/-!
# What replay recovers

Replay returns the records at the start of the file, up to the first byte from which no complete
record can be read, and nothing behind it. A record that is longer than the reader allows ends the
replay as a torn one does, although the writer accepts it.
-/

namespace Raftrust.Storage

open Lib

variable [Crc32]

/-! ### Files that start with a record -/

/-- The bytes start with a header, a length that is allowed, as many bytes of data, and the checksum
that belongs to them. -/
structure StartsWithRecord (f : Bytes) : Prop where
  header : headerSize ≤ f.length
  allowed : fromLe ((f.drop 4).take 4) ≤ maxRecordLen
  complete : headerSize + fromLe ((f.drop 4).take 4) ≤ f.length
  crc : fromLe (f.take 4) =
    (WalRecord.computeCrc ((f.drop headerSize).take (fromLe ((f.drop 4).take 4)))).toNat

lemma startsWithRecord_iff {f : Bytes} :
    StartsWithRecord f ↔ ∃ r rest, WalRecord.decode f = .ok (some (r, rest)) := by
  constructor
  · rintro ⟨hheader, hallowed, hcomplete, hcrc⟩
    refine ⟨⟨(f.drop headerSize).take (fromLe ((f.drop 4).take 4))⟩,
      (f.drop headerSize).drop (fromLe ((f.drop 4).take 4)), ?_⟩
    rw [WalRecord.decode, if_neg (not_lt.mpr hheader)]
    simp only
    rw [if_neg (not_lt.mpr hallowed), if_neg, if_neg (not_not.mpr hcrc)]
    rw [List.length_drop]
    omega
  · rintro ⟨r, rest, h⟩
    rw [WalRecord.decode] at h
    simp only at h
    split_ifs at h with h1 h2 h3 h4
    · cases h
    · rw [List.length_drop] at h3
      exact ⟨not_lt.mp h1, not_lt.mp h2, by omega, not_not.mp h4⟩

namespace WalReader

/-- The reader ends with a list: other errors than corruption do not come from the bytes. -/
lemma readAll_of_not_startsWithRecord {f : Bytes} (h : ¬ StartsWithRecord f) :
    readAll f = .ok [] := by
  rw [startsWithRecord_iff] at h
  cases hdecode : WalRecord.decode f with
  | ok result =>
    cases result with
    | none => exact readAll_of_decode_none hdecode
    | some p => exact absurd ⟨p.1, p.2, hdecode⟩ h
  | error e =>
    obtain ⟨msg, rfl⟩ : ∃ msg, e = .corruption msg := by
      rw [WalRecord.decode] at hdecode
      simp only at hdecode
      split_ifs at hdecode <;> exact ⟨_, (Except.error.inj hdecode).symm⟩
    exact readAll_of_decode_corruption hdecode

/-- What is read is the start of the file, and no record follows it. -/
lemma exists_readAll (f : Bytes) : ∃ rs rest, readAll f = .ok rs ∧ f = encodeAll rs ++ rest ∧
    ¬ StartsWithRecord rest := by
  -- every record that is read leaves a shorter file
  induction hn : f.length using Nat.strong_induction_on generalizing f with
  | _ n ih =>
    subst hn
    by_cases hf : StartsWithRecord f
    · obtain ⟨r, rest, hdecode⟩ := startsWithRecord_iff.mp hf
      obtain ⟨rs, rest', hread, rfl, hrest⟩ := ih rest.length (length_rest_lt hdecode) rest rfl
      refine ⟨r :: rs, rest', ?_, ?_, hrest⟩
      · rw [readAll_of_decode_some hdecode, hread]
        rfl
      · rw [encodeAll_cons, List.append_assoc]
        exact (WalRecord.encode_of_decode hdecode).1
    · exact ⟨[], f, readAll_of_not_startsWithRecord hf, rfl, hf⟩

/-! ### Cut files -/

/-- A file of records cut at byte `k` holds the records that end there or before, and part of one
more at most. -/
lemma exists_take_encodeAll (rs : List WalRecord) (k : ℕ) : ∃ n ≤ rs.length,
    (∀ m ≤ rs.length, (encodeAll (rs.take m)).length ≤ k ↔ m ≤ n) ∧
    (((encodeAll rs).take k = encodeAll (rs.take n)) ∨ ∃ r ∈ rs, ∃ j < headerSize + r.data.length,
      (encodeAll rs).take k = encodeAll (rs.take n) ++ r.encode.take j) := by
  induction rs generalizing k with
  | nil => exact ⟨0, le_rfl, by simp, .inl (by simp)⟩
  | cons r rs ih =>
    by_cases hk : r.encode.length ≤ k
    · obtain ⟨n, hn, hfit, htake⟩ := ih (k - r.encode.length)
      refine ⟨n + 1, by simpa using hn, ?_, ?_⟩
      · rintro (_ | m) hm
        · simp
        · rw [List.take_succ_cons, encodeAll_cons, List.length_append, Nat.succ_le_succ_iff,
            ← hfit m (by simpa using hm)]
          omega
      · have hsplit : (encodeAll (r :: rs)).take k =
            r.encode ++ (encodeAll rs).take (k - r.encode.length) := by
          rw [encodeAll_cons, List.take_append, List.take_of_length_le hk]
        rw [hsplit, List.take_succ_cons, encodeAll_cons]
        rcases htake with htake | ⟨r', hr', j, hj, htake⟩
        · exact .inl (by rw [htake])
        · exact .inr ⟨r', List.mem_cons_of_mem _ hr', j, hj, by rw [htake, List.append_assoc]⟩
    · refine ⟨0, Nat.zero_le _, ?_, .inr ⟨r, List.mem_cons_self, k, ?_, ?_⟩⟩
      · rintro (_ | m) -
        · simp
        · rw [List.take_succ_cons, encodeAll_cons, List.length_append]
          omega
      · rwa [← WalRecord.encode_length, ← not_le]
      · rw [encodeAll_cons, List.take_append_of_le_length (not_le.mp hk).le]
        simp

/-- For every file the reader returns the records at its start up to the first byte from which no
complete record can be read. Of a file of records that is cut at any byte it returns those that fit
completely. -/
theorem readAll_maximal :
    (∀ f : Bytes, ∃ rs rest, readAll f = .ok rs ∧ f = encodeAll rs ++ rest ∧
      ¬ StartsWithRecord rest) ∧
    ∀ rs : List WalRecord, (∀ r ∈ rs, r.data.length ≤ maxRecordLen) → ∀ k : ℕ,
      ∃ n ≤ rs.length, readAll ((encodeAll rs).take k) = .ok (rs.take n) ∧
        ∀ m ≤ rs.length, (encodeAll (rs.take m)).length ≤ k ↔ m ≤ n := by
  refine ⟨exists_readAll, fun rs hrs k => ?_⟩
  obtain ⟨n, hn, hfit, htake⟩ := exists_take_encodeAll rs k
  have hkept : ∀ r ∈ rs.take n, r.data.length ≤ maxRecordLen := fun r hr =>
    hrs r (List.mem_of_mem_take hr)
  refine ⟨n, hn, ?_, hfit⟩
  rcases htake with htake | ⟨r, hr, j, hj, htake⟩
  · rw [htake, readAll_encodeAll hkept]
  · rw [htake, readAll_encodeAll_append hkept, readAll_take_encode (hrs r hr) hj]
    simp [Except.map]

omit [Crc32] in
/-- Two records cut in the second one. -/
theorem readAll_maximal_tornRecord :
    letI := Crc32.ieee
    let rs : List WalRecord := [⟨[1, 2]⟩, ⟨[3]⟩]
    (∀ r ∈ rs, r.data.length ≤ maxRecordLen) ∧
      readAll ((encodeAll rs).take 18) = .ok [⟨[1, 2]⟩] := by
  let _ := Crc32.ieee
  refine ⟨by decide, ?_⟩
  obtain ⟨n, hn, hread, hfit⟩ := readAll_maximal.2 [⟨[1, 2]⟩, ⟨[3]⟩] (by decide) 18
  have hone := (hfit 1 (by simp)).mp (by simp [WalRecord.encode_length, headerSize])
  have htwo := (hfit 2 (by simp)).not.mp (by simp [WalRecord.encode_length, headerSize])
  obtain rfl : n = 1 := by omega
  exact hread

/-! ### What was written -/

/-- A record the reader does not allow ends the replay. -/
lemma readAll_encode_append_of_lt {d : Bytes} (hd : maxRecordLen < d.length)
    (hlt : d.length < 2 ^ 32) (tail : Bytes) :
    readAll (WalRecord.encode ⟨d⟩ ++ tail) = .ok [] := by
  apply readAll_of_not_startsWithRecord
  rintro ⟨-, hallowed, -, -⟩
  rw [WalRecord.len_encode, fromLe_toLe hlt] at hallowed
  exact absurd hd (not_lt.mpr hallowed)

/-- Records that were written are read back up to the first one that the reader does not allow. -/
lemma readAll_encodeAll_eq_takeWhile {ds : List Bytes} (h : ∀ d ∈ ds, d.length < 2 ^ 32) :
    readAll (encodeAll (ds.map WalRecord.mk)) =
      .ok ((ds.takeWhile fun d => d.length ≤ maxRecordLen).map WalRecord.mk) := by
  induction ds with
  | nil => simp
  | cons d ds ih =>
    have hrest := ih fun d' hd' => h d' (List.mem_cons_of_mem _ hd')
    rw [List.map_cons, encodeAll_cons]
    by_cases hd : d.length ≤ maxRecordLen
    · rw [readAll_of_decode_some (WalRecord.decode_encode_append ⟨d⟩ _ hd), hrest,
        List.takeWhile_cons_of_pos (by simpa using hd)]
      rfl
    · rw [readAll_encode_append_of_lt (not_le.mp hd) (h d List.mem_cons_self),
        List.takeWhile_cons_of_neg (by simpa using hd)]
      rfl

/-- The file after the records have been appended to a new one and synced. -/
def written (ds : List Bytes) : Bytes :=
  (ds.foldl WalWriter.append (WalWriter.openFile [])).sync.file

lemma written_eq (ds : List Bytes) : written ds = encodeAll (ds.map WalRecord.mk) := by
  simp [written]

/-- The reader returns all that was written exactly if it allows the length of every record. -/
theorem readAll_written_iff (ds : List Bytes) (h : ∀ d ∈ ds, d.length < 2 ^ 32) :
    readAll (written ds) = .ok (ds.map WalRecord.mk) ↔ ∀ d ∈ ds, d.length ≤ maxRecordLen := by
  rw [written_eq, readAll_encodeAll_eq_takeWhile h, Except.ok.injEq]
  constructor
  · intro heq d hd
    have hall := List.map_injective_iff.mpr (fun a b hab => WalRecord.mk.inj hab) heq
    exact of_decide_eq_true (List.takeWhile_eq_self_iff.mp hall d hd)
  · intro hall
    rw [List.takeWhile_eq_self_iff.mpr fun d hd => decide_eq_true (hall d hd)]

omit [Crc32] in
theorem readAll_written_iff_twoRecords :
    letI := Crc32.ieee
    (∀ d ∈ [[1, 2], ([] : Bytes)], d.length < 2 ^ 32) ∧
      readAll (written [[1, 2], []]) = .ok [⟨[1, 2]⟩, ⟨[]⟩] := by
  let _ := Crc32.ieee
  exact ⟨by decide, (readAll_written_iff [[1, 2], []] (by decide)).mpr (by decide)⟩

omit [Crc32] in
/-- Whatever the checksum, a record of one byte more than allowed is lost, with the record behind
it. -/
theorem oversizedRecord_not_read :
    let ds : List Bytes := [List.replicate (maxRecordLen + 1) 0, [1]]
    (∀ d ∈ ds, d.length < 2 ^ 32) ∧ ds.map WalRecord.mk ≠ [] ∧
      ∀ _ : Crc32, readAll (written ds) = .ok [] := by
  -- the length is kept as a variable, so that the record is never written out
  have hgeneral : ∀ n, maxRecordLen < n → n < 2 ^ 32 →
      let ds : List Bytes := [List.replicate n 0, [1]]
      (∀ d ∈ ds, d.length < 2 ^ 32) ∧ ds.map WalRecord.mk ≠ [] ∧
        ∀ _ : Crc32, readAll (written ds) = .ok [] := by
    intro n hn hlt ds
    have hlen : ∀ d ∈ ds, d.length < 2 ^ 32 := by
      simpa [ds] using hlt
    refine ⟨hlen, by simp [ds], fun _ => ?_⟩
    rw [written_eq, readAll_encodeAll_eq_takeWhile hlen, List.takeWhile_cons_of_neg]
    · rfl
    · rw [List.length_replicate, decide_eq_true_eq]
      omega
  exact hgeneral _ (Nat.lt_succ_self _) (by decide)

end WalReader

end Raftrust.Storage
