import Raftrust.Storage.Sst.Checked
import Raftrust.Storage.Sst.RoundTrip

/-!
# The format that the block reader accepts

A block is a number of encoded entries and, at its end, this number. The reader accepts these byte
strings, whatever stands behind the last entry, and reports all others as corrupt. A length that is
read is the one that would be written, so each entry that is returned is an encoding that is there.
-/

namespace Raftrust.Storage

open Lib

/-- The bytes are a block with the given entries: the number in the last four bytes is theirs, and
the bytes before start with the encodings of the entries. -/
@[mk_iff]
structure IsBlock (data : Bytes) (entries : List BlockEntry) : Prop where
  trailer : 4 ≤ data.length
  count : entries.length = fromLe (data.drop (data.length - 4))
  short : ∀ e ∈ entries, e.Short
  encoded : entries.flatMap BlockEntry.encode <+: data.take (data.length - 4)

instance (data : Bytes) (entries : List BlockEntry) : Decidable (IsBlock data entries) :=
  decidable_of_iff _ (isBlock_iff data entries).symm

namespace BlockReader

/-- A round of the loop, in terms of the two numbers at the front. -/
lemma readLoop_fields {keyLen valLen : ℕ} (hkey : keyLen < 2 ^ 32) (hval : valLen < 2 ^ 32)
    (n : ℕ) (rest : Bytes) :
    readLoop (n + 1) (toLe 4 keyLen ++ (toLe 4 valLen ++ rest)) =
      if rest.length < keyLen then .error (corruption "block key truncated")
      else if valLen = tombstoneMarker then
        (readLoop n (rest.drop keyLen)).map (⟨rest.take keyLen, none⟩ :: ·)
      else if (rest.drop keyLen).length < valLen then .error (corruption "block value truncated")
      else (readLoop n ((rest.drop keyLen).drop valLen)).map
        (⟨rest.take keyLen, some ((rest.drop keyLen).take valLen)⟩ :: ·) := by
  have hlen : ¬ (toLe 4 keyLen ++ (toLe 4 valLen ++ rest)).length < 8 := by
    simp only [List.length_append, toLe_length]
    omega
  have hkey' : fromLe (toLe 4 keyLen) = keyLen := fromLe_toLe hkey
  have hval' : fromLe (toLe 4 valLen) = valLen := fromLe_toLe hval
  rw [readLoop, if_neg hlen]
  simp [hkey', hval']

/-- A round of the loop returns an entry exactly if its encoding stands at the front. -/
lemma readLoop_succ_eq_ok_iff (n : ℕ) (bs : Bytes) (entries : List BlockEntry) :
    readLoop (n + 1) bs = .ok entries ↔
      ∃ e rest entries', e.Short ∧ bs = e.encode ++ rest ∧ readLoop n rest = .ok entries' ∧
        entries = e :: entries' := by
  constructor
  · intro h
    by_cases hlen : bs.length < 8
    · rw [readLoop, if_pos hlen] at h
      cases h
    obtain ⟨keyLen, hkey, rest, rfl⟩ := exists_toLe_append (show 4 ≤ bs.length by omega)
    rw [List.length_append, toLe_length] at hlen
    obtain ⟨valLen, hval, rest, rfl⟩ := exists_toLe_append (show 4 ≤ rest.length by omega)
    rw [readLoop_fields hkey hval] at h
    split at h
    · cases h
    next hkeyLen =>
    have hkeyLen : (rest.take keyLen).length = keyLen := List.length_take_of_le (not_lt.mp hkeyLen)
    split at h
    · next htombstone =>
      obtain ⟨entries', hread, rfl⟩ := map_eq_ok_iff.mp h
      refine ⟨⟨rest.take keyLen, none⟩, rest.drop keyLen, entries', ⟨?_, by simp⟩, ?_, hread, rfl⟩
      · exact hkeyLen.trans_lt hkey
      · simp [BlockEntry.encode, BlockEntry.valLen, hkeyLen, htombstone]
    · next hlive =>
      split at h
      · cases h
      next hvalLen =>
      have hvalLen : ((rest.drop keyLen).take valLen).length = valLen :=
        List.length_take_of_le (not_lt.mp hvalLen)
      obtain ⟨entries', hread, rfl⟩ := map_eq_ok_iff.mp h
      refine ⟨⟨rest.take keyLen, some ((rest.drop keyLen).take valLen)⟩,
        (rest.drop keyLen).drop valLen, entries', ⟨hkeyLen.trans_lt hkey, ?_⟩, ?_, hread, rfl⟩
      · rintro v ⟨rfl⟩
        rw [hvalLen]
        exact lt_of_le_of_ne (Nat.le_pred_of_lt hval) hlive
      · simp only [BlockEntry.encode, BlockEntry.valLen, hkeyLen, hvalLen, Option.getD_some,
          List.append_assoc, List.take_append_drop]
  · rintro ⟨e, rest, entries', hshort, rfl, hread, rfl⟩
    rw [readLoop_encode_append hshort, hread]
    rfl

lemma readEntries_eq_ok_iff (data : Bytes) (entries : List BlockEntry) :
    readEntries data = .ok entries ↔ IsBlock data entries := by
  rw [readEntries]
  split
  · next hlen => exact iff_of_false (by rintro ⟨⟩) fun h => absurd h.trailer (not_le.mpr hlen)
  · next hlen =>
    dsimp only
    rw [readLoop_eq_ok_iff (fun _ => rfl) readLoop_succ_eq_ok_iff]
    constructor
    · rintro ⟨hcount, hshort, hencoded⟩
      exact ⟨not_lt.mp hlen, hcount, hshort, hencoded⟩
    · intro h
      exact ⟨h.count, h.short, h.encoded⟩

/-- The parser returns the entries of a block, and of nothing else. Every other byte string is
reported as corrupt. In a slice, which has less than `2 ^ 63` bytes, it reads only inside: with
every access checked it is the same function. -/
theorem readEntries_exact (data : Bytes) :
    (∀ entries, readEntries data = .ok entries ↔ IsBlock data entries) ∧
    ((∀ entries, ¬ IsBlock data entries) →
      ∃ msg, readEntries data = .error (.error (.corruption msg))) ∧
    (data.length < 2 ^ 63 → readEntriesChecked data = readEntries data) := by
  refine ⟨readEntries_eq_ok_iff data, fun hnone => ?_, readEntriesChecked_eq⟩
  cases hread : readEntries data with
  | ok entries => exact absurd ((readEntries_eq_ok_iff data entries).mp hread) (hnone entries)
  | error a =>
    obtain ⟨msg, rfl⟩ := reportsCorruption_readEntries data a hread
    exact ⟨msg, rfl⟩

/-- Two entries, a byte that belongs to none, and the trailer. -/
def paddedBlock : Bytes :=
  [1, 0, 0, 0, 1, 0, 0, 0, 7, 8, 1, 0, 0, 0, 255, 255, 255, 255, 9, 42, 2, 0, 0, 0]

theorem readEntries_exact_paddedBlock :
    IsBlock paddedBlock [⟨[7], some [8]⟩, ⟨[9], none⟩] ∧
      readEntriesChecked paddedBlock = .ok [⟨[7], some [8]⟩, ⟨[9], none⟩] ∧
      ∃ msg, readEntries (paddedBlock.drop 1) = .error (.error (.corruption msg)) := by
  obtain ⟨haccepts, -, hinside⟩ := readEntries_exact paddedBlock
  have hblock : IsBlock paddedBlock [⟨[7], some [8]⟩, ⟨[9], none⟩] := by decide
  refine ⟨hblock, (hinside (by decide)).trans ((haccepts _).mpr hblock), ?_⟩
  refine (readEntries_exact (paddedBlock.drop 1)).2.1 fun entries h => ?_
  have hread := (readEntries_eq_ok_iff _ _).mpr h
  have hfails : readEntries (paddedBlock.drop 1) =
      .error (corruption "block key truncated") := by decide
  cases hfails.symm.trans hread

end BlockReader

end Raftrust.Storage
