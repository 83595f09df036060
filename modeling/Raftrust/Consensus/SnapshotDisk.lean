import Mathlib.Data.List.AList
import Raftrust.Consensus.Configuration
import Raftrust.Consensus.Snapshot
import Raftrust.Lib.Run
import Raftrust.Storage.Manifest

/-!
# Snapshot files on disk

The two files of a snapshot are written one after the other, under names that give the index in
twenty digits. Then the directory is listed, in any order, and the files of older snapshots are
removed one by one. The latest snapshot is found by reading the names again. A crash leaves the
first few of these changes.
-/

namespace Raftrust.Consensus

open Lib Storage

abbrev FileName := List Char

/-! ### Names -/

def snapshotStart : List Char := ['s', 'n', 'a', 'p', 's', 'h', 'o', 't', '-']

def dataExtension : List Char := ['.', 'd', 'a', 't', 'a']

def metaExtension : List Char := ['.', 'm', 'e', 't', 'a']

/-- The name of a file of the snapshot at an index. -/
def snapshotName (index : LogIndex) (extension : List Char) : FileName :=
  snapshotStart ++ ((Nat.toDigits 10 index).leftpad 20 '0' ++ extension)

def snapshotDataPath (index : LogIndex) : FileName :=
  snapshotName index dataExtension

def snapshotMetaPath (index : LogIndex) : FileName :=
  snapshotName index metaExtension

example : snapshotMetaPath 7 = "snapshot-00000000000000000007.meta".toList := by decide +kernel

/-- What follows the given beginning. -/
def stripStart (start name : List Char) : Option (List Char) :=
  if start <+: name then some (name.drop start.length) else none

/-- What precedes the given end. -/
def stripEnd (ending name : List Char) : Option (List Char) :=
  if ending <:+ name then some (name.take (name.length - ending.length)) else none

/-- Parse a word of 64 bits. A sign in front is allowed. -/
def parseU64 (text : List Char) : Option ℕ :=
  let digits := (stripStart ['+'] text).getD text
  if digits ≠ [] ∧ digits.all Char.isDigit ∧ Nat.ofDigitChars 10 digits 0 < 2 ^ 64 then
    some (Nat.ofDigitChars 10 digits 0)
  else none

/-- The index in the name of a metadata file. -/
def metaIndex (name : FileName) : Option LogIndex :=
  if snapshotStart <+: name ∧ metaExtension <:+ name then
    parseU64 (((stripStart snapshotStart name).bind (stripEnd metaExtension)).getD ['0'])
  else none

/-- The index in the name of any file of a snapshot. -/
def fileIndex (name : FileName) : Option LogIndex :=
  if snapshotStart <+: name then
    parseU64 (((stripStart snapshotStart name).map fun rest =>
      rest.takeWhile (· ≠ '.')).getD ['0'])
  else none

lemma stripStart_append (start rest : List Char) :
    stripStart start (start ++ rest) = some rest := by
  rw [stripStart, if_pos (List.prefix_append _ _), List.drop_left]

lemma stripEnd_append (rest ending : List Char) : stripEnd ending (rest ++ ending) = some rest := by
  rw [stripEnd, if_pos (List.suffix_append _ _), List.length_append, Nat.add_sub_cancel,
    List.take_left]

section

variable {i j : LogIndex}

lemma isDigit_of_mem_leftpad {c : Char} (h : c ∈ (Nat.toDigits 10 i).leftpad 20 '0') :
    c.isDigit := by
  rcases List.mem_append.mp h with hzero | hdigit
  · rw [List.eq_of_mem_replicate hzero]
    decide
  · exact Nat.isDigit_of_mem_toDigits (by decide) (by decide) hdigit

lemma parseU64_leftpad (h : i < 2 ^ 64) :
    parseU64 ((Nat.toDigits 10 i).leftpad 20 '0') = some i := by
  have hne : (Nat.toDigits 10 i).leftpad 20 '0' ≠ [] := by
    rw [List.leftpad]
    exact List.append_ne_nil_of_right_ne_nil _ Nat.toDigits_ne_nil
  have hsign : stripStart ['+'] ((Nat.toDigits 10 i).leftpad 20 '0') = none := by
    refine if_neg fun hp => ?_
    have := isDigit_of_mem_leftpad (hp.subset (List.mem_singleton_self '+'))
    cases this
  rw [parseU64, hsign, Option.getD_none, ofDigitChars_leftpad]
  refine if_pos ⟨hne, ?_, h⟩
  exact List.all_eq_true.mpr fun c hc => isDigit_of_mem_leftpad hc

lemma metaIndex_metaPath (h : i < 2 ^ 64) : metaIndex (snapshotMetaPath i) = some i := by
  have hend : metaExtension <:+ snapshotMetaPath i := by
    rw [snapshotMetaPath, snapshotName, ← List.append_assoc]
    exact List.suffix_append _ _
  rw [metaIndex, if_pos ⟨List.prefix_append _ _, hend⟩, snapshotMetaPath, snapshotName,
    stripStart_append, Option.bind_some, stripEnd_append, Option.getD_some, parseU64_leftpad h]

/-- Data files are not taken for metadata. -/
lemma metaIndex_dataPath (i : LogIndex) : metaIndex (snapshotDataPath i) = none := by
  rw [metaIndex, if_neg]
  intro h
  have hdata : dataExtension <:+ snapshotDataPath i := by
    rw [snapshotDataPath, snapshotName, ← List.append_assoc]
    exact List.suffix_append _ _
  have hsame := (List.suffix_of_suffix_length_le h.2 hdata (by decide)).eq_of_length (by decide)
  exact absurd hsame (by decide)

lemma fileIndex_snapshotName (h : i < 2 ^ 64) (extension : List Char) :
    fileIndex (snapshotName i ('.' :: extension)) = some i := by
  have hdigits : ((Nat.toDigits 10 i).leftpad 20 '0' ++ '.' :: extension).takeWhile (· ≠ '.') =
      (Nat.toDigits 10 i).leftpad 20 '0' := by
    rw [List.takeWhile_append_of_pos, List.takeWhile_cons_of_neg (by simp), List.append_nil]
    intro c hc
    have hdigit := isDigit_of_mem_leftpad hc
    simp only [ne_eq, decide_not, Bool.not_eq_eq_eq_not, Bool.not_true, decide_eq_false_iff_not]
    rintro rfl
    cases hdigit
  rw [fileIndex, snapshotName, if_pos (List.prefix_append _ _), stripStart_append,
    Option.map_some, Option.getD_some, hdigits, parseU64_leftpad h]

lemma fileIndex_dataPath (h : i < 2 ^ 64) : fileIndex (snapshotDataPath i) = some i :=
  fileIndex_snapshotName h _

lemma fileIndex_metaPath (h : i < 2 ^ 64) : fileIndex (snapshotMetaPath i) = some i :=
  fileIndex_snapshotName h _

lemma snapshotName_inj {e e' : List Char} (hlen : e.length = e'.length)
    (h : snapshotName i e = snapshotName j e') : i = j ∧ e = e' := by
  obtain ⟨hdigits, hext⟩ := List.append_inj' (List.append_cancel_left h) hlen
  refine ⟨?_, hext⟩
  rw [← ofDigitChars_leftpad 20 i, hdigits, ofDigitChars_leftpad]

lemma snapshotDataPath_inj : snapshotDataPath i = snapshotDataPath j ↔ i = j :=
  ⟨fun h => (snapshotName_inj rfl h).1, congrArg _⟩

lemma snapshotMetaPath_inj : snapshotMetaPath i = snapshotMetaPath j ↔ i = j :=
  ⟨fun h => (snapshotName_inj rfl h).1, congrArg _⟩

lemma snapshotMetaPath_ne_dataPath : snapshotMetaPath i ≠ snapshotDataPath j := by
  intro h
  have hext : metaExtension = dataExtension := (snapshotName_inj (by decide) h).2
  exact absurd hext (by decide)

end

/-! ### The directory -/

/-- The JSON of the metadata of a snapshot. -/
class SnapshotJson where
  toStringPretty : SnapshotMetadata → Bytes
  fromStr : Bytes → Except String SnapshotMetadata

namespace SnapshotJson

def fieldText (name : List Char) (value : ℕ) : List Char :=
  [' ', ' ', '"'] ++ name ++ ['"', ':', ' '] ++ Nat.toDigits 10 value

def metadataText (m : SnapshotMetadata) : List Char :=
  ['\x7b', '\n'] ++
    [',', '\n'].intercalate
      [fieldText ['l', 'a', 's', 't', '_', 'i', 'n', 'c', 'l', 'u', 'd', 'e', 'd', '_', 'i', 'n',
          'd', 'e', 'x'] m.lastIncludedIndex,
        fieldText ['l', 'a', 's', 't', '_', 'i', 'n', 'c', 'l', 'u', 'd', 'e', 'd', '_', 't', 'e',
          'r', 'm'] m.lastIncludedTerm,
        fieldText ['c', 'h', 'e', 'c', 'k', 's', 'u', 'm'] m.checksum.toNat,
        fieldText ['s', 'i', 'z', 'e'] m.size] ++
    ['\n', '\x7d']

/-- The metadata as text. What is decoded is the text of one of the metadata that are given. -/
@[reducible] def text (metadata : List SnapshotMetadata) : SnapshotJson where
  toStringPretty := fun m => ConfigJson.ascii (metadataText m)
  fromStr := fun data =>
    match metadata.find? fun m => ConfigJson.ascii (metadataText m) = data with
    | some m => .ok m
    | none => .error "expected value at line 1 column 1"

end SnapshotJson

/-- The order in which a directory is listed, which is up to the system. -/
structure ListingOrder where
  list : List FileName → List FileName
  perm : ∀ names, (list names).Perm names

namespace ListingOrder

def asStored : ListingOrder where
  list := id
  perm := fun _ => List.Perm.refl _

def reversed : ListingOrder where
  list := List.reverse
  perm := List.reverse_perm

end ListingOrder

/-- The files of the snapshot directory, by name. -/
abbrev SnapshotDisk := AList fun _ : FileName => Bytes

/-- A change of the snapshot directory. -/
inductive SnapshotOp where
  | write (name : FileName) (content : Bytes)
  | remove (name : FileName)

namespace SnapshotOp

def apply (files : SnapshotDisk) : SnapshotOp → SnapshotDisk
  | write name content => files.insert name content
  | remove name => files.erase name

/-- The directory after the changes. -/
def applyAll (files : SnapshotDisk) (ops : List SnapshotOp) : SnapshotDisk :=
  ops.foldl apply files

lemma applyAll_append (files : SnapshotDisk) (ops ops' : List SnapshotOp) :
    applyAll files (ops ++ ops') = applyAll (applyAll files ops) ops' :=
  List.foldl_append

lemma lookup_applyAll_remove (files : SnapshotDisk) (names : List FileName) (name : FileName) :
    (applyAll files (names.map remove)).lookup name =
      if name ∈ names then none else files.lookup name := by
  induction names generalizing files with
  | nil => simp [applyAll]
  | cons n names ih =>
    rw [List.map_cons, applyAll, List.foldl_cons, ← applyAll, ih, apply]
    by_cases heq : name = n
    · rw [heq, AList.lookup_erase, ite_self, if_pos List.mem_cons_self]
    · rw [AList.lookup_erase_ne heq]
      simp only [List.mem_cons, heq, false_or]

end SnapshotOp

namespace SnapshotDisk

variable (files : SnapshotDisk) (order : ListingOrder)

def findLatestSnapshot : Option LogIndex :=
  (order.list files.keys).foldl (fun latest name =>
    match metaIndex name with
    | some index => some (latest.elim index fun l => max l index)
    | none => latest) none

/-- The files that the cleanup removes, in the order it comes to them. -/
def oldSnapshots (keepIndex : LogIndex) : List FileName :=
  (order.list files.keys).filter fun name => (fileIndex name).any (· < keepIndex)

variable {files order} in
lemma fileIndex_of_mem_oldSnapshots {keepIndex : LogIndex} {name : FileName}
    (h : name ∈ files.oldSnapshots order keepIndex) : ∃ i < keepIndex, fileIndex name = some i := by
  have hold := (List.mem_filter.mp h).2
  rw [Option.any_eq_true] at hold
  obtain ⟨i, hindex, hlt⟩ := hold
  exact ⟨i, of_decide_eq_true hlt, hindex⟩

def cleanupOps (keepIndex : LogIndex) : List SnapshotOp :=
  (files.oldSnapshots order keepIndex).map .remove

section

variable [SnapshotJson]

def writeOps (metadata : SnapshotMetadata) (data : Bytes) : List SnapshotOp :=
  [.write (snapshotDataPath metadata.lastIncludedIndex) data,
    .write (snapshotMetaPath metadata.lastIncludedIndex) (SnapshotJson.toStringPretty metadata)]

/-- The directory when both files have been written. -/
def written (metadata : SnapshotMetadata) (data : Bytes) : SnapshotDisk :=
  SnapshotOp.applyAll files (writeOps metadata data)

/-- Write the two files of a snapshot and remove the older ones. -/
def saveOps (metadata : SnapshotMetadata) (data : Bytes) : List SnapshotOp :=
  writeOps metadata data ++
    (files.written metadata data).cleanupOps order metadata.lastIncludedIndex

lemma lookup_written_metaPath (metadata : SnapshotMetadata) (data : Bytes) (i : LogIndex) :
    (files.written metadata data).lookup (snapshotMetaPath i) =
      if i = metadata.lastIncludedIndex then some (SnapshotJson.toStringPretty metadata)
      else files.lookup (snapshotMetaPath i) := by
  simp only [written, writeOps, SnapshotOp.applyAll, List.foldl_cons, List.foldl_nil,
    SnapshotOp.apply]
  split
  · rw [‹i = _›, AList.lookup_insert]
  · rw [AList.lookup_insert_ne (mt snapshotMetaPath_inj.mp ‹_›),
      AList.lookup_insert_ne snapshotMetaPath_ne_dataPath]

lemma lookup_written_dataPath (metadata : SnapshotMetadata) (data : Bytes) (i : LogIndex) :
    (files.written metadata data).lookup (snapshotDataPath i) =
      if i = metadata.lastIncludedIndex then some data
      else files.lookup (snapshotDataPath i) := by
  simp only [written, writeOps, SnapshotOp.applyAll, List.foldl_cons, List.foldl_nil,
    SnapshotOp.apply]
  rw [AList.lookup_insert_ne snapshotMetaPath_ne_dataPath.symm]
  split
  · rw [‹i = _›, AList.lookup_insert]
  · rw [AList.lookup_insert_ne (mt snapshotDataPath_inj.mp ‹_›)]

def loadMetadata (index : LogIndex) : Except Error SnapshotMetadata :=
  match files.lookup (snapshotMetaPath index) with
  | none => .error (.io "No such file or directory (os error 2)")
  | some json =>
    match SnapshotJson.fromStr json with
    | .ok metadata => .ok metadata
    | .error e => .error (.corruption s!"parse snapshot metadata: {e}")

end

def loadData (index : LogIndex) : Except Error Bytes :=
  match files.lookup (snapshotDataPath index) with
  | none => .error (.io "No such file or directory (os error 2)")
  | some data => .ok data

section

variable [Crc32] [SnapshotJson]

/-- The changes of `create_snapshot`, and the metadata it returns. -/
def createOps (lastIndex : LogIndex) (lastTerm : Term) (data : Bytes) :
    SnapshotMetadata × List SnapshotOp :=
  let metadata : SnapshotMetadata :=
    { lastIncludedIndex := lastIndex
      lastIncludedTerm := lastTerm
      checksum := Crc32.hash data
      size := data.length }
  (metadata, files.saveOps order metadata data)

/-- The changes of `receive_snapshot`. -/
def receiveOps (metadata : SnapshotMetadata) (data : Bytes) : Except Error (List SnapshotOp) :=
  let computed := Crc32.hash data
  if computed ≠ metadata.checksum then
    let expected := hex32 metadata.checksum.toNat
    let computed := hex32 computed.toNat
    .error (.corruption
      s!"received snapshot checksum mismatch: expected={expected}, computed={computed}")
  else .ok (files.saveOps order metadata data)

/-- Load the latest snapshot, if there is one. -/
def loadLatest : Except Error (Option (SnapshotMetadata × Bytes)) :=
  match files.findLatestSnapshot order with
  | some index => do
    let metadata ← files.loadMetadata index
    let data ← files.loadData index
    let computed := Crc32.hash data
    if computed ≠ metadata.checksum then
      let stored := hex32 metadata.checksum.toNat
      let computed := hex32 computed.toNat
      .error (.corruption s!"snapshot checksum mismatch: stored={stored}, computed={computed}")
    else return some (metadata, data)
  | none => .ok none

end

end SnapshotDisk

/-! ### Calls -/

inductive SnapshotCall where
  | create (lastIndex : LogIndex) (lastTerm : Term) (data : Bytes)
  | receive (metadata : SnapshotMetadata) (data : Bytes)

namespace SnapshotCall

def data : SnapshotCall → Bytes
  | create _ _ data => data
  | receive _ data => data

section

variable [Crc32]

def metadata : SnapshotCall → SnapshotMetadata
  | create lastIndex lastTerm data =>
    { lastIncludedIndex := lastIndex
      lastIncludedTerm := lastTerm
      checksum := Crc32.hash data
      size := data.length }
  | receive metadata _ => metadata

def index (c : SnapshotCall) : LogIndex :=
  c.metadata.lastIncludedIndex

/-- The data has the checksum that the metadata says. Other calls are refused. -/
def Accepted (c : SnapshotCall) : Prop :=
  Crc32.hash c.data = c.metadata.checksum

instance (c : SnapshotCall) : Decidable c.Accepted := by
  unfold Accepted
  infer_instance

variable [SnapshotJson]

/-- The changes that a call makes to the directory. -/
def ops (files : SnapshotDisk) (order : ListingOrder) : SnapshotCall → List SnapshotOp
  | create lastIndex lastTerm data => (files.createOps order lastIndex lastTerm data).2
  | receive metadata data =>
    match files.receiveOps order metadata data with
    | .ok ops => ops
    | .error _ => []

lemma ops_of_accepted {c : SnapshotCall} (h : c.Accepted) (files : SnapshotDisk)
    (order : ListingOrder) : c.ops files order = files.saveOps order c.metadata c.data := by
  cases c with
  | create lastIndex lastTerm data => rfl
  | receive metadata data =>
    have hsum : Crc32.hash data = metadata.checksum := h
    simp only [ops, SnapshotDisk.receiveOps]
    rw [if_neg (not_not.mpr hsum)]
    rfl

lemma ops_of_not_accepted {c : SnapshotCall} (h : ¬ c.Accepted) (files : SnapshotDisk)
    (order : ListingOrder) : c.ops files order = [] := by
  cases c with
  | create lastIndex lastTerm data => exact absurd rfl h
  | receive metadata data =>
    have hsum : Crc32.hash data ≠ metadata.checksum := h
    simp only [ops, SnapshotDisk.receiveOps]
    rw [if_pos hsum]

end

end SnapshotCall

/-! ### The latest snapshot -/

lemma foldl_latest_some (l : List LogIndex) (m : LogIndex) :
    l.foldl (fun latest i => some (latest.elim i fun k => max k i)) (some m) =
      some (l.foldl max m) := by
  induction l generalizing m with
  | nil => rfl
  | cons i l ih => exact ih (max m i)

lemma foldl_latest_eq_max? (l : List LogIndex) :
    l.foldl (fun latest i => some (latest.elim i fun k => max k i)) none = l.max? := by
  cases l with
  | nil => rfl
  | cons i l => exact foldl_latest_some l i

namespace SnapshotDisk

variable {files : SnapshotDisk}

/-- There are only files of snapshots at indices of 64 bits. -/
def Named (files : SnapshotDisk) : Prop :=
  ∀ name ∈ files, ∃ i < 2 ^ 64, name = snapshotDataPath i ∨ name = snapshotMetaPath i

lemma findLatestSnapshot_eq (files : SnapshotDisk) (order : ListingOrder) :
    files.findLatestSnapshot order = ((order.list files.keys).filterMap metaIndex).max? := by
  rw [← foldl_latest_eq_max?, List.foldl_filterMap, findLatestSnapshot]
  congr 1
  funext latest name
  cases metaIndex name <;> rfl

lemma Named.mem_filterMap_metaIndex (hnamed : files.Named) (order : ListingOrder) {i : LogIndex} :
    i ∈ (order.list files.keys).filterMap metaIndex ↔
      i < 2 ^ 64 ∧ snapshotMetaPath i ∈ files := by
  simp only [List.mem_filterMap, (order.perm _).mem_iff, ← AList.mem_keys]
  constructor
  · rintro ⟨name, hmem, hindex⟩
    obtain ⟨j, hj, rfl | rfl⟩ := hnamed name hmem
    · rw [metaIndex_dataPath] at hindex
      cases hindex
    · rw [metaIndex_metaPath hj] at hindex
      obtain rfl := Option.some.inj hindex
      exact ⟨hj, hmem⟩
  · rintro ⟨hi, hmem⟩
    exact ⟨_, hmem, metaIndex_metaPath hi⟩

/-- The latest snapshot is the one with the greatest index among the metadata files, whatever the
order in which the directory is listed. -/
lemma Named.findLatestSnapshot_eq_some_iff (hnamed : files.Named) (order : ListingOrder)
    {m : LogIndex} :
    files.findLatestSnapshot order = some m ↔
      (m < 2 ^ 64 ∧ snapshotMetaPath m ∈ files) ∧
        ∀ i < 2 ^ 64, snapshotMetaPath i ∈ files → i ≤ m := by
  rw [findLatestSnapshot_eq, List.max?_eq_some_iff, hnamed.mem_filterMap_metaIndex]
  simp only [hnamed.mem_filterMap_metaIndex, and_imp]

lemma Named.findLatestSnapshot_eq_none_iff (hnamed : files.Named) (order : ListingOrder) :
    files.findLatestSnapshot order = none ↔ ∀ i < 2 ^ 64, snapshotMetaPath i ∉ files := by
  rw [findLatestSnapshot_eq, List.max?_eq_none_iff, List.eq_nil_iff_forall_not_mem]
  simp only [hnamed.mem_filterMap_metaIndex, not_and]

section

variable [Crc32] [SnapshotJson]

lemma loadLatest_eq_ok_none_iff (files : SnapshotDisk) (order : ListingOrder) :
    files.loadLatest order = .ok none ↔ files.findLatestSnapshot order = none := by
  unfold loadLatest
  cases files.findLatestSnapshot order with
  | none => simp
  | some i =>
    simp only [reduceCtorEq, iff_false]
    intro h
    obtain ⟨metadata, -, h⟩ := bind_eq_ok_iff.mp h
    obtain ⟨data, -, h⟩ := bind_eq_ok_iff.mp h
    split at h <;> cases h

omit [Crc32] in
lemma loadMetadata_eq_ok_iff (files : SnapshotDisk) {i : LogIndex} {metadata : SnapshotMetadata} :
    files.loadMetadata i = .ok metadata ↔
      ∃ json ∈ files.lookup (snapshotMetaPath i), SnapshotJson.fromStr json = .ok metadata := by
  unfold loadMetadata
  cases files.lookup (snapshotMetaPath i) with
  | none => simp
  | some json =>
    simp only [Option.mem_some_iff, exists_eq_left']
    cases SnapshotJson.fromStr json <;> simp

omit [Crc32] [SnapshotJson] in
lemma loadData_eq_ok_iff (files : SnapshotDisk) {i : LogIndex} {data : Bytes} :
    files.loadData i = .ok data ↔ files.lookup (snapshotDataPath i) = some data := by
  unfold loadData
  cases files.lookup (snapshotDataPath i) <;> simp

/-- A snapshot is loaded exactly if its two files are there and belong together. -/
lemma loadLatest_eq_ok_some_iff (files : SnapshotDisk) (order : ListingOrder)
    {metadata : SnapshotMetadata} {data : Bytes} :
    files.loadLatest order = .ok (some (metadata, data)) ↔
      ∃ i, files.findLatestSnapshot order = some i ∧
        (∃ json ∈ files.lookup (snapshotMetaPath i), SnapshotJson.fromStr json = .ok metadata) ∧
        files.lookup (snapshotDataPath i) = some data ∧ Crc32.hash data = metadata.checksum := by
  unfold loadLatest
  cases files.findLatestSnapshot order with
  | none => simp
  | some i =>
    simp only [Option.some.injEq, exists_eq_left', bind_eq_ok_iff, loadMetadata_eq_ok_iff,
      loadData_eq_ok_iff]
    constructor
    · rintro ⟨m, hmeta, d, hdata, h⟩
      split at h
      · cases h
      · obtain ⟨rfl, rfl⟩ := Prod.mk.inj (Option.some.inj (Except.ok.inj h))
        exact ⟨hmeta, hdata, not_not.mp ‹_›⟩
    · rintro ⟨hmeta, hdata, hsum⟩
      exact ⟨metadata, hmeta, data, hdata, if_neg (not_not.mpr hsum)⟩

end

end SnapshotDisk

end Raftrust.Consensus
