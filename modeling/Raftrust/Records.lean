import Raftrust.Consensus.Durability
import Raftrust.Mvcc.Version
import Raftrust.Storage.MapView
import Raftrust.Storage.Sst.Checked

/-!
# Records with hand-written formats

The log of the consensus, the log of the store and the versions of a key each have a format that is
written field by field and read at offsets into the record. Here the readers have these offsets,
with every sum, index and slice checked. They do what the readers without offsets do on all bytes,
and they give back what has been written.
-/

namespace Raftrust

open Lib

namespace Storage

/-! ### Fields -/

/-- Bytes behind their length, which has four bytes, and where they end. -/
def framedAt (data : Bytes) (offset : ℕ) : Except Abort (Bytes × ℕ) := do
  let len ← leAt 4 data offset
  let start ← checkedAdd offset 4
  let stop ← checkedAdd start len
  let bytes ← slice data start stop
  return (bytes, stop)

/-- The offsets are far from the end of the machine words, since a length has four bytes. -/
lemma framedAt_eq_ite {offset : ℕ} (h : offset < 2 ^ 63) (data : Bytes) :
    framedAt data offset =
      if data.length < offset + 4 + fromLe ((data.drop offset).take 4) then .error .panicked
      else .ok ((data.drop (offset + 4)).take (fromLe ((data.drop offset).take 4)),
        offset + 4 + fromLe ((data.drop offset).take 4)) := by
  have hlen := fromLe_take_lt 4 (data.drop offset)
  rw [framedAt, leAt_eq_ite (by omega)]
  by_cases hheader : data.length < offset + 4
  · rw [if_pos hheader, if_pos (by omega)]
    rfl
  rw [if_neg hheader, checkedAdd_of_lt (by omega)]
  simp only [bind, Except.bind]
  rw [checkedAdd_of_lt (by omega)]
  simp only
  by_cases hbytes : data.length < offset + 4 + fromLe ((data.drop offset).take 4)
  · rw [if_pos hbytes, slice_of_lt hbytes]
  · rw [if_neg hbytes, slice_of_le (Nat.le_add_right _ _) (not_lt.mp hbytes),
      Nat.add_sub_cancel_left]
    rfl

/-- The same behind a tag. -/
lemma framedAt_cons {offset : ℕ} (h : offset + 1 < 2 ^ 63) (tag : Byte) (rest : Bytes) :
    framedAt (tag :: rest) (offset + 1) =
      if rest.length < offset + 4 + fromLe ((rest.drop offset).take 4) then .error .panicked
      else .ok ((rest.drop (offset + 4)).take (fromLe ((rest.drop offset).take 4)),
        offset + 4 + fromLe ((rest.drop offset).take 4) + 1) := by
  rw [framedAt_eq_ite h, List.drop_succ_cons, Nat.add_right_comm offset 1 4, List.drop_succ_cons,
    List.length_cons, Nat.add_right_comm (offset + 4) 1]
  exact if_congr Nat.add_lt_add_iff_right rfl rfl

/-- The first field behind a tag. -/
lemma framedAt_one (tag : Byte) (rest : Bytes) :
    framedAt (tag :: rest) 1 =
      if rest.length < 4 + fromLe (rest.take 4) then .error .panicked
      else .ok ((rest.drop 4).take (fromLe (rest.take 4)), 4 + fromLe (rest.take 4) + 1) := by
  have h := framedAt_cons (show 0 + 1 < 2 ^ 63 by decide) tag rest
  rwa [Nat.zero_add, Nat.zero_add, List.drop_zero] at h

/-! ### Operations of the store -/

namespace WalOp

def decodeChecked (data : Bytes) : Except Abort WalOp :=
  if data = [] then .error (.error (.corruption "empty WAL op"))
  else do
    let tag ← indexAt data 0
    if tag = 1 then
      let (key, valStart) ← framedAt data 1
      let (value, _) ← framedAt data valStart
      return .put key value
    else if tag = 2 then
      let (key, _) ← framedAt data 1
      return .delete key
    else .error (.error (.corruption s!"unknown WAL op tag: {tag.val}"))

lemma decodeChecked_eq (data : Bytes) : decodeChecked data = decode data := by
  cases data with
  | nil => rfl
  | cons tag rest =>
    have hkeyLen := fromLe_take_lt 4 rest
    rw [decodeChecked, decode, if_neg (List.cons_ne_nil _ _), indexAt_cons_zero]
    simp only [bind, Except.bind]
    by_cases hput : tag = 1
    · rw [if_pos hput, if_pos hput, framedAt_one]
      by_cases hkey : rest.length < 4 + fromLe (rest.take 4)
      · rw [if_pos hkey, if_pos (by omega)]
      rw [if_neg hkey]
      simp only
      rw [framedAt_cons (by omega), List.drop_drop, List.drop_drop]
      by_cases hvalue : rest.length < 4 + fromLe (rest.take 4) + 4 +
          fromLe ((rest.drop (4 + fromLe (rest.take 4))).take 4)
      · rw [if_pos hvalue, if_pos hvalue]
      · rw [if_neg hvalue, if_neg hvalue]
        rfl
    rw [if_neg hput, if_neg hput]
    by_cases hdelete : tag = 2
    · rw [if_pos hdelete, if_pos hdelete, framedAt_one]
      by_cases hkey : rest.length < 4 + fromLe (rest.take 4)
      · rw [if_pos hkey, if_pos hkey]
      · rw [if_neg hkey, if_neg hkey]
        rfl
    · rw [if_neg hdelete, if_neg hdelete]

end WalOp

end Storage

/-! ### Entries of the log -/

namespace Consensus.RaftLog

open Storage

def decodeEntryChecked (data : Bytes) : Except Abort LogEntry :=
  if data.length < 21 then .error (.error (.corruption "log entry too short"))
  else do
    let index ← leAt 8 data 0
    let term ← leAt 8 data 8
    let typeByte ← indexAt data 16
    let entryType ← (decodeType typeByte).mapError Abort.error
    let (entryData, _) ← framedAt data 17
    return { index := index, term := term, data := entryData, entryType := entryType }

lemma decodeEntryChecked_eq (data : Bytes) : decodeEntryChecked data = decodeEntry data := by
  rw [decodeEntryChecked, decodeEntry]
  split
  · rfl
  next hlen =>
  have htype : indexAt data 16 = .ok (data.getD 16 0) := by
    apply indexAt_of_getElem?
    rw [List.getD_eq_getElem?_getD, List.getElem?_eq_getElem (by omega), Option.getD_some]
  have hindex := leAt_eq_ite (show 0 + 8 < 2 ^ 64 by decide) data
  have hterm := leAt_eq_ite (show 8 + 8 < 2 ^ 64 by decide) data
  rw [if_neg (by omega)] at hindex hterm
  rw [hindex, hterm, htype, framedAt_eq_ite (by decide)]
  simp only [bind, Except.bind]
  cases decodeType (data.getD 16 0) with
  | error e => rfl
  | ok entryType =>
    simp only [Except.mapError]
    by_cases hdata : data.length < 17 + 4 + fromLe ((data.drop 17).take 4)
    · rw [if_pos hdata, if_pos hdata]
    · rw [if_neg hdata, if_neg hdata]
      rfl

end Consensus.RaftLog

/-! ### Versions -/

namespace Mvcc.VersionedValue

open Storage

def i64At (data : Bytes) (offset : ℕ) : Except Abort Int64 := do
  return (UInt64.ofNat (← leAt 8 data offset)).toInt64

/-- The numbers behind the value, which ends at the offset. -/
def decodeFieldsAt (value : Option Bytes) (data : Bytes) (offset : ℕ) :
    Except Abort VersionedValue := do
  let createRevision ← leAt 8 data offset
  let modRevision ← leAt 8 data (← checkedAdd offset 8)
  let leaseId ← i64At data (← checkedAdd offset 16)
  let ttlSeconds ← i64At data (← checkedAdd offset 24)
  return { value, createRevision, modRevision, leaseId, ttlSeconds }

def decodeChecked (data : Bytes) : Except Abort VersionedValue := do
  let tag ← indexAt data 0
  if tag = 1 then
    let (value, offset) ← framedAt data 1
    decodeFieldsAt (some value) data offset
  else decodeFieldsAt none data 1

lemma decodeFieldsAt_eq (value : Option Bytes) (data : Bytes) {offset : ℕ} (h : offset < 2 ^ 63) :
    decodeFieldsAt value data offset = decodeFields value (data.drop offset) := by
  have hsum : ∀ {n}, n < 2 ^ 62 → checkedAdd offset n = .ok (offset + n) :=
    fun hn => checkedAdd_of_lt (by omega)
  have hat : ∀ {n}, n < 2 ^ 62 → leAt 8 data (offset + n) =
      if (data.drop offset).length < n + 8 then .error .panicked
      else .ok (fromLe (((data.drop offset).drop n).take 8)) := by
    intro n hn
    rw [leAt_eq_ite (by omega), List.length_drop, List.drop_drop]
    exact if_congr (by omega) rfl rfl
  have hfirst := hat (show 0 < 2 ^ 62 by decide)
  rw [Nat.add_zero, List.drop_zero] at hfirst
  rw [decodeFieldsAt, decodeFields, hfirst, hsum (by decide), hsum (by decide), hsum (by decide)]
  simp only [bind, Except.bind, i64At]
  rw [hat (by decide), hat (by decide), hat (by decide)]
  split_ifs
  all_goals first | rfl | omega

lemma decodeChecked_eq (data : Bytes) : decodeChecked data = decode data := by
  cases data with
  | nil => rfl
  | cons tag rest =>
    have hlen := fromLe_take_lt 4 rest
    rw [decodeChecked, decode, indexAt_cons_zero]
    simp only [bind, Except.bind]
    by_cases hput : tag = 1
    · rw [if_pos hput, if_pos hput, framedAt_one]
      by_cases hshort : rest.length < 4 + fromLe (rest.take 4)
      · rw [if_pos hshort, if_pos hshort]
      · rw [if_neg hshort, if_neg hshort, List.drop_drop]
        exact decodeFieldsAt_eq _ (tag :: rest) (by omega)
    · rw [if_neg hput, if_neg hput]
      exact decodeFieldsAt_eq none (tag :: rest) (by decide)

end Mvcc.VersionedValue

/-! ### Round trips -/

open Consensus Mvcc Storage

/-- Records are read back as they have been written, and every access stays inside the record: a
`.ok` of these readers means that no index, slice or sum has failed. So two records of one kind
never have the same bytes. -/
theorem records_round_trip :
    (∀ e, RaftLog.Sized e → RaftLog.decodeEntryChecked (RaftLog.encodeEntry e) = .ok e) ∧
      (∀ op : WalOp, op.Sized → WalOp.decodeChecked op.encode = .ok op) ∧
      (∀ v : VersionedValue, v.Fits → VersionedValue.decodeChecked v.encode = .ok v) ∧
      Set.InjOn RaftLog.encodeEntry {e | RaftLog.Sized e} ∧
      Set.InjOn WalOp.encode {op | op.Sized} ∧
      Set.InjOn VersionedValue.encode {v | v.Fits} := by
  have hentry : ∀ e, RaftLog.Sized e →
      RaftLog.decodeEntryChecked (RaftLog.encodeEntry e) = .ok e := by
    intro e he
    rw [RaftLog.decodeEntryChecked_eq, RaftLog.decodeEntry_encodeEntry he]
  have hop : ∀ op : WalOp, op.Sized → WalOp.decodeChecked op.encode = .ok op := by
    intro op hop
    rw [WalOp.decodeChecked_eq, WalOp.decode_encode hop]
  have hversion : ∀ v : VersionedValue, v.Fits → VersionedValue.decodeChecked v.encode = .ok v := by
    intro v hv
    rw [VersionedValue.decodeChecked_eq, VersionedValue.decode_encode hv]
  exact ⟨hentry, hop, hversion, injOn_of_decode hentry, injOn_of_decode hop,
    injOn_of_decode hversion⟩

/-- The largest numbers, empty keys and values, and negative leases and lifetimes. -/
theorem records_round_trip_extremes :
    RaftLog.decodeEntryChecked (RaftLog.encodeEntry ⟨2 ^ 64 - 1, 2 ^ 64 - 1, [], .noop⟩) =
        .ok ⟨2 ^ 64 - 1, 2 ^ 64 - 1, [], .noop⟩ ∧
      WalOp.decodeChecked (WalOp.put [] [1, 2]).encode = .ok (.put [] [1, 2]) ∧
      VersionedValue.decodeChecked
          (VersionedValue.mk (some []) (2 ^ 64 - 1) 0 (-1) Int64.minValue).encode =
        .ok ⟨some [], 2 ^ 64 - 1, 0, -1, Int64.minValue⟩ := by
  obtain ⟨hentry, hop, hversion, -⟩ := records_round_trip
  refine ⟨hentry _ ⟨by decide, by decide, by decide⟩, hop _ ⟨by decide, ?_⟩,
    hversion _ ⟨?_, by decide, by decide⟩⟩
  · rintro v ⟨rfl⟩
    decide
  · rintro v ⟨rfl⟩
    decide

end Raftrust
