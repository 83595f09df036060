import Raftrust.Consensus.Cluster
import Raftrust.Consensus.Merge

/-!
# The log after a restart

The file of the log only ever grows: it holds every entry that was appended, also those that were
truncated later, and nothing about snapshots. Opening it again gives back the log as long as no
call makes the log in memory end elsewhere than the file does.
-/

namespace Raftrust.Consensus

open Lib Storage

namespace RaftLog

/-! ### Entries on disk -/

/-- The numbers of the entry fit their fields: the index and the term 64 bits, the length of the
record 32 bits. -/
@[mk_iff]
structure Fits (e : LogEntry) : Prop where
  index : e.index < 2 ^ 64
  term : e.term < 2 ^ 64
  data : 21 + e.data.length < 2 ^ 32

instance (e : LogEntry) : Decidable (Fits e) :=
  decidable_of_iff _ (fits_iff e).symm

/-- The numbers of the entry fit their fields, the length of the data with them. -/
structure Sized (e : LogEntry) : Prop where
  index : e.index < 2 ^ 64
  term : e.term < 2 ^ 64
  data : e.data.length < 2 ^ 32

lemma Fits.sized {e : LogEntry} (h : Fits e) : Sized e where
  index := h.index
  term := h.term
  data := (Nat.le_add_left _ _).trans_lt h.data

lemma encodeEntry_length (e : LogEntry) : (encodeEntry e).length = 21 + e.data.length := by
  simp [encodeEntry]
  omega

lemma decodeType_typeByte (ty : EntryType) : decodeType (typeByte ty) = .ok ty := by
  cases ty <;> rfl

lemma decodeEntry_encodeEntry {e : LogEntry} (h : Sized e) :
    decodeEntry (encodeEntry e) = .ok e := by
  have hindex : fromLe (toLe 8 e.index) = e.index := fromLe_toLe (h.index.trans_eq (by norm_num))
  have hterm : fromLe (toLe 8 e.term) = e.term := fromLe_toLe (h.term.trans_eq (by norm_num))
  have hdata : fromLe (toLe 4 e.data.length) = e.data.length := fromLe_toLe h.data
  -- the five fields, one after the other
  have hfields : encodeEntry e = toLe 8 e.index ++ (toLe 8 e.term ++
      (typeByte e.entryType :: (toLe 4 e.data.length ++ e.data))) := by
    simp [encodeEntry]
  have h8 : (encodeEntry e).drop 8 = toLe 8 e.term ++
      (typeByte e.entryType :: (toLe 4 e.data.length ++ e.data)) := by
    rw [hfields, List.drop_left' (toLe_length 8 _)]
  have h16 : (encodeEntry e).drop 16 =
      typeByte e.entryType :: (toLe 4 e.data.length ++ e.data) := by
    rw [show 16 = 8 + 8 from rfl, ← List.drop_drop, h8, List.drop_left' (toLe_length 8 _)]
  have h17 : (encodeEntry e).drop 17 = toLe 4 e.data.length ++ e.data := by
    rw [show 17 = 16 + 1 from rfl, ← List.drop_drop, h16, List.drop_one, List.tail_cons]
  have h21 : (encodeEntry e).drop 21 = e.data := by
    rw [show 21 = 17 + 4 from rfl, ← List.drop_drop, h17, List.drop_left' (toLe_length 4 _)]
  have htype : (encodeEntry e).getD 16 0 = typeByte e.entryType := by
    have h0 : ((encodeEntry e).drop 16)[0]? = some (typeByte e.entryType) := by rw [h16]; rfl
    rw [List.getElem?_drop] at h0
    rw [List.getD_eq_getElem?_getD, h0, Option.getD_some]
  have hlen : fromLe (((encodeEntry e).drop 17).take 4) = e.data.length := by
    rw [h17, List.take_left' (toLe_length 4 _), hdata]
  unfold decodeEntry
  rw [if_neg (by rw [encodeEntry_length]; omega), htype, decodeType_typeByte]
  dsimp only
  rw [hlen, if_neg (by rw [encodeEntry_length]; omega), h21, h8, List.take_length,
    List.take_left' (toLe_length 8 _), hterm]
  conv_lhs => rw [hfields, List.take_left' (toLe_length 8 _), hindex]

variable [Crc32]

/-- The file that holds the entries `es`. -/
def fileOf (es : List LogEntry) : Bytes :=
  encodeAll (es.map fun e => ⟨encodeEntry e⟩)

lemma fileOf_append (es es' : List LogEntry) : fileOf (es ++ es') = fileOf es ++ fileOf es' := by
  simp [fileOf]

/-- The reader gets back records that are not too long. -/
def Readable (e : LogEntry) : Prop :=
  21 + e.data.length ≤ maxRecordLen
  deriving Decidable

omit [Crc32] in
lemma mapM_decodeEntry {es : List LogEntry} (h : ∀ e ∈ es, Fits e) :
    (es.map fun e => (⟨encodeEntry e⟩ : WalRecord)).mapM (fun record => decodeEntry record.data) =
      .ok es :=
  mapM_map_eq_ok fun e he => decodeEntry_encodeEntry (h e he).sized

/-- Opening a file whose first records are those of `es`, and of which nothing else is read. -/
lemma openFile_fileOf_append {es : List LogEntry} (hfits : ∀ e ∈ es, Fits e)
    (hread : ∀ e ∈ es, Readable e) {tail : Bytes} (htail : WalReader.readAll tail = .ok []) :
    openFile (fileOf es ++ tail) =
      .ok { entries := es, wal := WalWriter.openFile (fileOf es ++ tail), snapshotIndex := 0,
            snapshotTerm := 0 } := by
  have hrecords : ∀ r ∈ es.map fun e => (⟨encodeEntry e⟩ : WalRecord),
      r.data.length ≤ maxRecordLen := by
    intro r hr
    obtain ⟨e, he, rfl⟩ := List.mem_map.mp hr
    exact (encodeEntry_length e).le.trans (hread e he)
  have hall : WalReader.readAll (fileOf es ++ tail) =
      .ok (es.map fun e => ⟨encodeEntry e⟩) := by
    rw [fileOf, WalReader.readAll_encodeAll_append hrecords, htail]
    simp [Except.map]
  simp only [openFile, hall, Except.mapError, bind, Except.bind, mapM_decodeEntry hfits, pure,
    Except.pure]

/-- A record that is too long ends the replay. -/
lemma readAll_of_not_readable {e : LogEntry} (hfits : Fits e) (h : ¬ Readable e) (rest : Bytes) :
    WalReader.readAll (WalRecord.encode ⟨encodeEntry e⟩ ++ rest) = .ok [] := by
  have hlen : fromLe (toLe 4 (encodeEntry e).length) = 21 + e.data.length := by
    rw [encodeEntry_length]
    exact fromLe_toLe (hfits.data.trans_eq (by norm_num))
  have hlong : maxRecordLen < 21 + e.data.length := not_le.mp h
  have hge : ¬ (WalRecord.encode ⟨encodeEntry e⟩ ++ rest).length < headerSize := by
    rw [List.length_append, WalRecord.encode_length]
    omega
  have hdecode : ∃ msg, WalRecord.decode (WalRecord.encode ⟨encodeEntry e⟩ ++ rest) =
      .error (.corruption msg) := by
    simp only [WalRecord.decode, if_neg hge, WalRecord.len_encode, hlen, if_pos hlong]
    exact ⟨_, rfl⟩
  obtain ⟨msg, hmsg⟩ := hdecode
  exact WalReader.readAll_of_decode_corruption hmsg

/-! ### Calls -/

/-- The calls that change a log, appends being those that succeed. -/
inductive Op where
  | append (entries : List LogEntry)
  | truncateAfter (index : LogIndex)
  | compact (snapshotIndex : LogIndex) (snapshotTerm : Term)
  deriving DecidableEq, Repr

namespace Op

def apply (log : RaftLog) : Op → RaftLog
  | append entries => (log.append entries none).1
  | truncateAfter index => log.truncateAfter index
  | compact snapshotIndex snapshotTerm => log.compact snapshotIndex snapshotTerm

/-- Appended entries continue the log, and their fields fit. -/
def Admissible (log : RaftLog) : Op → Prop
  | append entries => NumberedFrom log.lastIndex entries ∧ ∀ e ∈ entries, Fits e
  | _ => True

instance (log : RaftLog) : ∀ op : Op, Decidable (op.Admissible log)
  | append entries =>
    inferInstanceAs (Decidable (NumberedFrom log.lastIndex entries ∧ ∀ e ∈ entries, Fits e))
  | truncateAfter _ => .isTrue trivial
  | compact _ _ => .isTrue trivial

/-- The call leaves the log with the end that the file has: no entry is too long to be read, nothing
is truncated, and a snapshot lies inside the log or is of exactly its last entry. -/
def Durable (log : RaftLog) : Op → Prop
  | append entries => ∀ e ∈ entries, Readable e
  | truncateAfter index => log.entries = [] ∨ log.lastIndex ≤ index
  | compact snapshotIndex snapshotTerm =>
    snapshotIndex ≤ log.snapshotIndex ∨ snapshotIndex < log.lastIndex ∨
      (snapshotIndex = log.lastIndex ∧ snapshotTerm = log.lastTerm)

instance (log : RaftLog) : ∀ op : Op, Decidable (op.Durable log)
  | append entries => inferInstanceAs (Decidable (∀ e ∈ entries, Readable e))
  | truncateAfter index => inferInstanceAs (Decidable (log.entries = [] ∨ log.lastIndex ≤ index))
  | compact s t => inferInstanceAs (Decidable (s ≤ log.snapshotIndex ∨ s < log.lastIndex ∨
      (s = log.lastIndex ∧ t = log.lastTerm)))

end Op

/-- A log over a file that does not exist yet. -/
def empty : RaftLog where
  entries := []
  wal := WalWriter.openFile []
  snapshotIndex := 0
  snapshotTerm := 0

/-- Opening the file again gives the same log above the snapshot. -/
def Recovers (log : RaftLog) : Prop :=
  ∃ log', openFile log.wal.file = .ok log' ∧ log'.lastIndex = log.lastIndex ∧
    log'.lastTerm = log.lastTerm ∧ ∀ i, log.snapshotIndex < i →
      log'.get i = log.get i ∧ log'.termAt i = log.termAt i

/-! ### Logs that agree with their file -/

/-- The file holds the entries `es`, and the log is what the snapshot leaves of them. -/
structure Mirrors (log : RaftLog) (es : List LogEntry) : Prop where
  buffer : log.wal.buffer = []
  file : log.wal.file = fileOf es
  fits : ∀ e ∈ es, Fits e
  readable : ∀ e ∈ es, Readable e
  numbered : NumberedFrom 0 es
  le_length : log.snapshotIndex ≤ es.length
  entries : log.entries = es.drop log.snapshotIndex
  lastTerm : log.lastTerm = (es.getLast?.map LogEntry.term).getD 0

lemma Mirrors.empty : Mirrors empty [] where
  buffer := rfl
  file := rfl
  fits := by simp
  readable := by simp
  numbered := NumberedFrom.nil
  le_length := le_rfl
  entries := rfl
  lastTerm := rfl

section

variable {log : RaftLog} {es : List LogEntry}

lemma Mirrors.contiguous (h : Mirrors log es) : log.Contiguous := by
  rw [Contiguous, h.entries]
  simpa using h.numbered.drop log.snapshotIndex

lemma Mirrors.lastIndex (h : Mirrors log es) : log.lastIndex = es.length := by
  have hle := h.le_length
  rw [h.contiguous.lastIndex_eq, h.entries, List.length_drop]
  lia

/-- What is read back from a file that starts with `es`, of which nothing else is read. -/
def replayed (es : List LogEntry) (file : Bytes) : RaftLog where
  entries := es
  wal := WalWriter.openFile file
  snapshotIndex := 0
  snapshotTerm := 0

omit [Crc32] in
lemma replayed_lastIndex (hnum : NumberedFrom 0 es) (file : Bytes) :
    (replayed es file).lastIndex = es.length := by
  have hcontig : (replayed es file).Contiguous := hnum
  rw [hcontig.lastIndex_eq]
  exact Nat.zero_add _

omit [Crc32] in
lemma replayed_lastTerm (es : List LogEntry) (file : Bytes) :
    (replayed es file).lastTerm = (es.getLast?.map LogEntry.term).getD 0 := by
  unfold RaftLog.lastTerm replayed
  cases es.getLast? <;> rfl

/-- A log that agrees with its file is recovered. -/
lemma Mirrors.recovers (h : Mirrors log es) : log.Recovers := by
  refine ⟨replayed es log.wal.file, ?_, ?_, ?_, fun i hi => ?_⟩
  · have := openFile_fileOf_append h.fits h.readable WalReader.readAll_nil
    rw [List.append_nil, ← h.file] at this
    exact this
  · rw [replayed_lastIndex h.numbered, h.lastIndex]
  · rw [replayed_lastTerm, h.lastTerm]
  · have hget : (replayed es log.wal.file).get i = log.get i := by
      rw [get_of_lt hi, h.entries, List.getElem?_drop, get_of_lt (Nat.zero_lt_of_lt hi)]
      change es[i - 0 - 1]? = _
      congr 1
      lia
    have hpos : i ≠ 0 := (Nat.zero_lt_of_lt hi).ne'
    refine ⟨hget, ?_⟩
    rw [termAt, termAt, if_neg hpos, if_neg hpos, if_neg hi.ne', hget]
    exact if_neg hpos

/-- A log that is recovered ends where the readable part of its file does. -/
lemma Recovers.last_eq (h : log.Recovers) (hfits : ∀ e ∈ es, Fits e)
    (hread : ∀ e ∈ es, Readable e) (hnum : NumberedFrom 0 es) {tail : Bytes}
    (hfile : log.wal.file = fileOf es ++ tail) (htail : WalReader.readAll tail = .ok []) :
    log.lastIndex = es.length ∧ log.lastTerm = (es.getLast?.map LogEntry.term).getD 0 := by
  obtain ⟨log', hopen, hindex, hterm, -⟩ := h
  rw [hfile, openFile_fileOf_append hfits hread htail] at hopen
  obtain rfl := Except.ok.inj hopen
  exact ⟨hindex.symm.trans (replayed_lastIndex hnum _), hterm.symm.trans (replayed_lastTerm es _)⟩

lemma Mirrors.last_eq (h : Mirrors log es) {log' : RaftLog} (hfile : log'.wal.file = log.wal.file)
    (h' : log'.Recovers) :
    log'.lastIndex = log.lastIndex ∧ log'.lastTerm = log.lastTerm := by
  rw [h.lastIndex, h.lastTerm]
  apply h'.last_eq h.fits h.readable h.numbered _ WalReader.readAll_nil
  rw [hfile, h.file, List.append_nil]

/-! ### One call -/

lemma append_file (log : RaftLog) (hbuffer : log.wal.buffer = []) (entries : List LogEntry) :
    (log.append entries none).1.wal.file = log.wal.file ++ fileOf entries ∧
      (log.append entries none).1.wal.buffer = [] := by
  simp [append, fileOf, hbuffer, Function.comp_def]

lemma Mirrors.append (h : Mirrors log es) {entries : List LogEntry}
    (hnum : NumberedFrom log.lastIndex entries) (hfits : ∀ e ∈ entries, Fits e)
    (hread : ∀ e ∈ entries, Readable e) :
    Mirrors (log.append entries none).1 (es ++ entries) := by
  obtain ⟨hfile, hbuffer⟩ := log.append_file h.buffer entries
  rw [h.lastIndex] at hnum
  constructor
  case buffer => exact hbuffer
  case file => rw [hfile, h.file, fileOf_append]
  case fits => exact List.forall_mem_append.mpr ⟨h.fits, hfits⟩
  case readable => exact List.forall_mem_append.mpr ⟨h.readable, hread⟩
  case numbered => exact h.numbered.append (by rwa [Nat.zero_add])
  case le_length =>
    rw [append_snapshotIndex, List.length_append]
    exact h.le_length.trans (Nat.le_add_right _ _)
  case entries =>
    rw [append_entries, append_snapshotIndex, if_pos rfl, h.entries,
      List.drop_append_of_le_length h.le_length]
  case lastTerm =>
    cases entries using List.reverseRecOn with
    | nil => simpa [RaftLog.append, RaftLog.lastTerm] using h.lastTerm
    | append_singleton entries e => simp [RaftLog.append, RaftLog.lastTerm]

/-- Behind an entry that is too long nothing is recovered. -/
lemma Mirrors.not_recovers_append (h : Mirrors log es) {entries : List LogEntry}
    (hnum : NumberedFrom log.lastIndex entries) (hfits : ∀ e ∈ entries, Fits e)
    (hread : ¬ ∀ e ∈ entries, Readable e) : ¬ (log.append entries none).1.Recovers := by
  intro hrec
  -- the entries up to the first that is too long
  obtain ⟨good, e, rest, rfl, hgood, he⟩ : ∃ good e rest, entries = good ++ e :: rest ∧
      (∀ x ∈ good, Readable x) ∧ ¬ Readable e := by
    push Not at hread
    obtain ⟨e, he, hlong⟩ := hread
    cases hfind : entries.find? (fun x => ¬ Readable x) with
    | none => simpa [hlong] using List.find?_eq_none.mp hfind e he
    | some x =>
      obtain ⟨hx, good, rest, heq, hgood⟩ := List.find?_eq_some_iff_append.mp hfind
      exact ⟨good, x, rest, heq, by simpa using hgood, by simpa using hx⟩
  obtain ⟨hfile, -⟩ := log.append_file h.buffer (good ++ e :: rest)
  rw [h.lastIndex] at hnum
  have hall : NumberedFrom 0 (es ++ good ++ e :: rest) := by
    rw [List.append_assoc]
    exact h.numbered.append (by rwa [Nat.zero_add])
  have hread : ∀ x ∈ es ++ good, Readable x := List.forall_mem_append.mpr ⟨h.readable, hgood⟩
  have hfits' : ∀ x ∈ es ++ good, Fits x :=
    List.forall_mem_append.mpr ⟨h.fits, fun x hx => hfits x (List.mem_append_left _ hx)⟩
  have htail : WalReader.readAll (fileOf (e :: rest)) = .ok [] := by
    rw [fileOf, List.map_cons, encodeAll_cons]
    exact readAll_of_not_readable (hfits e (by simp)) he _
  obtain ⟨hlast, -⟩ := hrec.last_eq hfits' hread (hall.of_isPrefix (List.prefix_append _ _))
    (by rw [hfile, h.file, fileOf_append, fileOf_append, List.append_assoc]) htail
  -- but the log in memory goes on behind it
  rw [← h.lastIndex] at hnum
  have hlen := (h.contiguous.append hnum none).lastIndex_eq
  rw [hlast, append_snapshotIndex, append_entries, if_pos rfl, h.entries] at hlen
  have hle := h.le_length
  simp only [List.length_append, List.length_drop, List.length_cons] at hlen
  lia

omit [Crc32] in
lemma truncateAfter_wal (log : RaftLog) (i : LogIndex) : (log.truncateAfter i).wal = log.wal := by
  unfold truncateAfter
  split <;> rfl

omit [Crc32] in
lemma truncateAfter_snapshotIndex (log : RaftLog) (i : LogIndex) :
    (log.truncateAfter i).snapshotIndex = log.snapshotIndex := by
  unfold truncateAfter
  split <;> rfl

lemma Mirrors.truncateAfter_eq (h : Mirrors log es) {i : LogIndex}
    (hi : log.entries = [] ∨ log.lastIndex ≤ i) : log.truncateAfter i = log := by
  have hlast := h.contiguous.lastIndex_eq
  have hshort : log.entries.length ≤ i - log.snapshotIndex := by
    rcases hi with hnil | hle
    · simp [hnil]
    · lia
  unfold RaftLog.truncateAfter
  split
  · next hs =>
    have hnil : log.entries = [] := List.length_eq_zero_iff.mp (by lia)
    rw [← hnil]
  · rw [List.take_of_length_le hshort]

lemma Mirrors.not_recovers_truncateAfter (h : Mirrors log es) {i : LogIndex}
    (hi : ¬ (log.entries = [] ∨ log.lastIndex ≤ i)) : ¬ (log.truncateAfter i).Recovers := by
  intro hrec
  push Not at hi
  obtain ⟨hne, hlt⟩ := hi
  have hpos := List.length_pos_iff.mpr hne
  have hlast := h.contiguous.lastIndex_eq
  have heq := (h.last_eq (congrArg WalWriter.file (log.truncateAfter_wal i)) hrec).1
  have hlen := (h.contiguous.truncateAfter i).lastIndex_eq
  rw [heq, truncateAfter_snapshotIndex, hlast] at hlen
  -- something was cut off
  have hcut : (log.truncateAfter i).entries.length < log.entries.length := by
    unfold RaftLog.truncateAfter
    split
    · exact hpos
    · rw [List.length_take]
      lia
  lia

lemma Mirrors.compact (h : Mirrors log es) {s : LogIndex} {t : Term}
    (hs : (Op.compact s t).Durable log) : Mirrors (log.compact s t) es := by
  rcases Nat.lt_or_ge log.snapshotIndex s with hgt | hle
  swap
  · rwa [RaftLog.compact_of_le log hle]
  have hgt' := not_le.mpr hgt
  have hlast := h.lastIndex
  have hle : s ≤ es.length := by
    rcases hs with hs | hs | ⟨hs, -⟩
    · exact absurd hs hgt'
    · lia
    · lia
  have hentries : log.entries.drop (s - log.snapshotIndex) = es.drop s := by
    rw [h.entries, List.drop_drop]
    congr 1
    lia
  rw [RaftLog.compact_of_lt log hgt]
  refine ⟨h.buffer, h.file, h.fits, h.readable, h.numbered, hle, hentries, ?_⟩
  -- the last entry is still there, or the snapshot is of it
  simp only [RaftLog.lastTerm, hentries, List.getLast?_drop]
  split_ifs with hend
  · rcases hs with hs | hs | ⟨-, rfl⟩
    · exact absurd hs hgt'
    · lia
    · exact h.lastTerm
  · have hne : es ≠ [] := by
      rintro rfl
      exact hend (Nat.zero_le _)
    rw [List.getLast?_eq_some_getLast hne]
    rfl

lemma Mirrors.not_recovers_compact (h : Mirrors log es) {s : LogIndex} {t : Term}
    (hs : ¬ (Op.compact s t).Durable log) : ¬ (log.compact s t).Recovers := by
  intro hrec
  simp only [Op.Durable, not_or, not_and] at hs
  obtain ⟨hgt, hge, hterm⟩ := hs
  have hlast := h.contiguous.lastIndex_eq
  have hcompact : log.compact s t =
      { log with entries := [], snapshotIndex := s, snapshotTerm := t } := by
    unfold RaftLog.compact
    rw [if_neg hgt]
    dsimp only
    rw [if_pos (by lia)]
  obtain ⟨hindex, hterm'⟩ := h.last_eq (by rw [hcompact]) hrec
  rw [hcompact] at hindex hterm'
  exact hterm hindex hterm'

/-! ### Whole runs -/

/-- One call on a log that agrees with its file. -/
lemma Mirrors.apply (h : Mirrors log es) {op : Op} (hop : op.Admissible log) :
    (op.Durable log → ∃ es', Mirrors (op.apply log) es') ∧
      (¬ op.Durable log → ¬ (op.apply log).Recovers) := by
  cases op with
  | append entries =>
    exact ⟨fun hread => ⟨_, h.append hop.1 hop.2 hread⟩, h.not_recovers_append hop.1 hop.2⟩
  | truncateAfter i =>
    refine ⟨fun hi => ⟨es, ?_⟩, h.not_recovers_truncateAfter⟩
    rwa [Op.apply, h.truncateAfter_eq hi]
  | compact s t => exact ⟨fun hs => ⟨es, h.compact hs⟩, h.not_recovers_compact⟩

lemma exists_mirrors {ops : List Op} (hops : Along Op.apply Op.Admissible empty ops)
    (h : Along Op.apply Op.Durable empty ops) : ∃ es, Mirrors (run Op.apply empty ops) es := by
  refine run_invariant Op.apply (fun ops => Along Op.apply Op.Admissible empty ops →
    ∃ es, Mirrors (run Op.apply empty ops) es) ?_ ?_ h hops
  · intro _
    exact ⟨[], Mirrors.empty⟩
  · intro ops op _ ih hdurable hops
    obtain ⟨hops, hop⟩ := (along_snoc _ _ _ _ _).mp hops
    obtain ⟨es, hes⟩ := ih hops
    rw [run_snoc]
    exact (hes.apply hop).1 hdurable

end

/-- **Durability of the log.** From a fresh file, the log is recovered after every call of a
sequence exactly if every call is durable. -/
theorem recovers_iff_durable (ops : List Op) (hops : Along Op.apply Op.Admissible empty ops) :
    (∀ ops', ops' <+: ops → (run Op.apply empty ops').Recovers) ↔
      Along Op.apply Op.Durable empty ops := by
  constructor
  · intro hrec
    induction ops using List.reverseRecOn with
    | nil => trivial
    | append_singleton ops op ih =>
      obtain ⟨hops, hop⟩ := (along_snoc _ _ _ _ _).mp hops
      have hdurable := ih hops fun ops' hp => hrec ops' (hp.trans (List.prefix_append _ _))
      obtain ⟨es, hes⟩ := exists_mirrors hops hdurable
      refine (along_snoc _ _ _ _ _).mpr ⟨hdurable, ?_⟩
      by_contra hnot
      apply (hes.apply hop).2 hnot
      have hlast := hrec _ List.prefix_rfl
      rwa [run_snoc] at hlast
  · intro hdurable ops' hp
    obtain ⟨es, hes⟩ := exists_mirrors (hops.of_isPrefix Op.apply hp)
      (hdurable.of_isPrefix Op.apply hp)
    exact hes.recovers

end RaftLog

/-! ### Two runs -/

namespace RaftLog

open scoped Runs

/-- Two entries, a truncation behind the end, a snapshot of the first entry and one more entry. -/
def snapshotInside : List Op :=
  [.append [⟨1, 1, [], .noop⟩, ⟨2, 1, [7], .normal⟩], .truncateAfter 5, .compact 1 1,
    .append [⟨3, 2, [], .normal⟩]]

theorem recovers_iff_durable_snapshotInside :
    Along Op.apply Op.Admissible empty snapshotInside ∧
      Along Op.apply Op.Durable empty snapshotInside ∧
      ∀ ops', ops' <+: snapshotInside → (run Op.apply empty ops').Recovers := by
  have hops : Along Op.apply Op.Admissible empty snapshotInside := by decide +kernel
  have hdurable : Along Op.apply Op.Durable empty snapshotInside := by decide +kernel
  exact ⟨hops, hdurable, (recovers_iff_durable _ hops).mpr hdurable⟩

/-- Three entries, of which the last two are replaced by one of a later term. -/
def replacedEntries : List Op :=
  [.append [⟨1, 1, [], .normal⟩, ⟨2, 1, [], .normal⟩, ⟨3, 1, [], .normal⟩], .truncateAfter 1,
    .append [⟨2, 2, [], .normal⟩]]

/-- After a restart the replaced entries are back. -/
theorem replacedEntries_return :
    Along Op.apply Op.Admissible empty replacedEntries ∧
      (run Op.apply empty replacedEntries).get 2 = some ⟨2, 2, [], .normal⟩ ∧
      (openFile (run Op.apply empty replacedEntries).wal.file).toOption.bind (·.get 2) =
        some ⟨2, 1, [], .normal⟩ ∧
      ¬ (run Op.apply empty replacedEntries).Recovers := by
  have hbefore : (run Op.apply empty replacedEntries).get 2 = some ⟨2, 2, [], .normal⟩ := by
    decide +kernel
  have hafter : (openFile (run Op.apply empty replacedEntries).wal.file).toOption.bind (·.get 2) =
      some ⟨2, 1, [], .normal⟩ := by
    decide +kernel
  refine ⟨by decide +kernel, hbefore, hafter, ?_⟩
  rintro ⟨log', hopen, -, -, hget⟩
  have hsame := (hget 2 (by decide +kernel)).1
  rw [hopen] at hafter
  simp only [Except.toOption, Option.bind_some, hsame, hbefore] at hafter
  cases hafter

end RaftLog

end Raftrust.Consensus
