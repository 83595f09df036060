import Raftrust.Consensus.CatchUp
import Raftrust.Consensus.Durability
import Raftrust.Lib.FiniteMap

/-!
# The log as an indexed sequence

What the log is for: a snapshot point and the entries at the indices behind it. The vector of the
code, with positions relative to the snapshot, refines a finite map from indices to entries under
which every operation and every query is about indices alone.
-/

namespace Raftrust.Consensus

open Lib Storage

/-- A snapshot point and the entries by index. -/
@[ext] structure IndexedLog where
  snapshotIndex : LogIndex
  snapshotTerm : Term
  entries : FiniteMap LogEntry

namespace IndexedLog

/-! ### Queries -/

def get (a : IndexedLog) (index : LogIndex) : Option LogEntry :=
  a.entries.get index

noncomputable def lastIndex (a : IndexedLog) : LogIndex :=
  a.entries.last?.elim a.snapshotIndex (·.1)

noncomputable def lastTerm (a : IndexedLog) : Term :=
  a.entries.last?.elim a.snapshotTerm (·.2.term)

/-- Index `0` is before all entries and has term `0`. -/
def termAt (a : IndexedLog) (index : LogIndex) : Option Term :=
  if index = 0 then some 0
  else if index = a.snapshotIndex then some a.snapshotTerm
  else (a.get index).map (·.term)

def matchTerm (a : IndexedLog) (index : LogIndex) (term : Term) : Prop :=
  a.termAt index = some term

/-- The entries at `index` and behind it, in order. -/
noncomputable def entriesFrom (a : IndexedLog) (index : LogIndex) : List LogEntry :=
  (a.entries.restrict (index ≤ ·)).values

/-! ### Operations -/

/-- Put every entry at its index. -/
def append (a : IndexedLog) (es : List LogEntry) : IndexedLog :=
  { a with entries := es.foldl (fun m e => m.insert e.index e) a.entries }

/-- Drop the entries behind an index. -/
def truncateAfter (a : IndexedLog) (index : LogIndex) : IndexedLog :=
  { a with entries := a.entries.restrict (· ≤ index) }

/-- Move the snapshot point forward and drop the entries up to it. -/
def compact (a : IndexedLog) (index : LogIndex) (term : Term) : IndexedLog :=
  if index ≤ a.snapshotIndex then a
  else
    { snapshotIndex := index
      snapshotTerm := term
      entries := a.entries.restrict (index < ·) }

end IndexedLog

def IndexedLog.execute (a : IndexedLog) : RaftLog.Op → IndexedLog
  | .append entries => a.append entries
  | .truncateAfter index => a.truncateAfter index
  | .compact snapshotIndex snapshotTerm => a.compact snapshotIndex snapshotTerm

namespace NumberedFrom

variable {b : LogIndex} {es : List LogEntry}

lemma pairwise (h : NumberedFrom b es) : es.Pairwise fun x y => x.index < y.index := by
  rw [List.pairwise_iff_getElem]
  intro i j hi hj hij
  have hx := h i _ (List.getElem?_eq_getElem hi)
  have hy := h j _ (List.getElem?_eq_getElem hj)
  lia

end NumberedFrom

namespace RaftLog

variable {log : RaftLog}

/-- The sequence that a log stands for. -/
def toIndexed (log : RaftLog) : IndexedLog where
  snapshotIndex := log.snapshotIndex
  snapshotTerm := log.snapshotTerm
  entries := .ofList LogEntry.index log.entries

/-! ### Queries -/

lemma Contiguous.pairwise (h : log.Contiguous) :
    log.entries.Pairwise fun x y => x.index < y.index :=
  NumberedFrom.pairwise h

lemma Contiguous.get_eq (h : log.Contiguous) (i : LogIndex) : log.get i = log.toIndexed.get i := by
  apply Option.ext
  intro e
  rw [IndexedLog.get, toIndexed, FiniteMap.get_ofList_eq_some_iff h.pairwise]
  constructor
  · intro he
    refine ⟨?_, h.index_of_get he⟩
    rw [RaftLog.get] at he
    split at he
    · cases he
    · exact List.mem_of_getElem? he
  · rintro ⟨hmem, rfl⟩
    obtain ⟨j, hj⟩ := List.getElem?_of_mem hmem
    have hindex := h j e hj
    rw [get_of_lt (by lia), ← hj]
    congr 1
    lia

lemma Contiguous.termAt_eq (h : log.Contiguous) (i : LogIndex) :
    log.termAt i = log.toIndexed.termAt i := by
  rw [RaftLog.termAt, IndexedLog.termAt, h.get_eq]
  rfl

lemma Contiguous.matchTerm_iff (h : log.Contiguous) (i : LogIndex) (t : Term) :
    log.matchTerm i t = true ↔ log.toIndexed.matchTerm i t := by
  rw [RaftLog.matchTerm, beq_iff_eq, h.termAt_eq]
  rfl

lemma Contiguous.lastIndex_toIndexed (h : log.Contiguous) :
    log.lastIndex = log.toIndexed.lastIndex := by
  rw [RaftLog.lastIndex, IndexedLog.lastIndex, toIndexed, FiniteMap.last?_ofList h.pairwise]
  cases log.entries.getLast? <;> rfl

lemma Contiguous.lastTerm_toIndexed (h : log.Contiguous) :
    log.lastTerm = log.toIndexed.lastTerm := by
  rw [RaftLog.lastTerm, IndexedLog.lastTerm, toIndexed, FiniteMap.last?_ofList h.pairwise]
  cases log.entries.getLast? <;> rfl

lemma Contiguous.entriesFrom_toIndexed (h : log.Contiguous) (i : LogIndex) :
    log.entriesFrom i = log.toIndexed.entriesFrom i := by
  rw [IndexedLog.entriesFrom, toIndexed, FiniteMap.restrict_ofList h.pairwise,
    FiniteMap.values_ofList (h.pairwise.filter _), entriesFrom_eq_drop]
  rcases Nat.eq_zero_or_pos i with rfl | hpos
  · simp
  · have hfilter := NumberedFrom.filter_gt h (i - 1)
    rw [Nat.sub_right_comm, ← hfilter]
    refine List.filter_congr fun e _ => ?_
    simp only [decide_eq_decide]
    lia

/-! ### Operations -/

lemma Contiguous.toIndexed_truncateAfter (h : log.Contiguous) (i : LogIndex) :
    (log.truncateAfter i).toIndexed = log.toIndexed.truncateAfter i := by
  have hentries : (log.truncateAfter i).entries = log.entries.filter fun e => e.index ≤ i := by
    rw [NumberedFrom.filter_le h, RaftLog.truncateAfter]
    split
    · next hle =>
      have hzero : i - log.snapshotIndex = 0 := by lia
      rw [hzero, List.take_zero]
    · rfl
  have hsnapshot : (log.truncateAfter i).snapshotIndex = log.snapshotIndex ∧
      (log.truncateAfter i).snapshotTerm = log.snapshotTerm := by
    rw [RaftLog.truncateAfter]
    split <;> exact ⟨rfl, rfl⟩
  rw [toIndexed, hentries, hsnapshot.1, hsnapshot.2, IndexedLog.truncateAfter, toIndexed,
    FiniteMap.restrict_ofList h.pairwise]

lemma Contiguous.toIndexed_compact (h : log.Contiguous) (s : LogIndex) (t : Term) :
    (log.compact s t).toIndexed = log.toIndexed.compact s t := by
  rw [IndexedLog.compact]
  split
  · next hle => rw [compact_of_le log hle]
  · next hlt =>
    rw [compact_of_lt log (not_le.mp hlt), toIndexed, toIndexed,
      FiniteMap.restrict_ofList h.pairwise, NumberedFrom.filter_gt h]

section

variable [Crc32]

lemma Contiguous.toIndexed_append (h : log.Contiguous) {es : List LogEntry}
    (hes : NumberedFrom log.lastIndex es) :
    (log.append es none).1.toIndexed = log.toIndexed.append es := by
  have hpairwise : (log.entries ++ es).Pairwise fun x y => x.index < y.index :=
    (h.append hes none).pairwise
  rw [IndexedLog.append, toIndexed, toIndexed, FiniteMap.foldl_insert_ofList hpairwise]
  rfl

/-- Appended entries continue the indices of the log. -/
def AppendsAtEnd (log : RaftLog) : Op → Prop
  | .append entries => NumberedFrom log.lastIndex entries
  | _ => True

instance (log : RaftLog) (op : Op) : Decidable (log.AppendsAtEnd op) := by
  cases op <;> unfold AppendsAtEnd <;> infer_instance

/-- Every operation keeps the log contiguous and does what it does to the sequence. -/
lemma Contiguous.execute (h : log.Contiguous) {op : Op} (hop : log.AppendsAtEnd op) :
    (op.apply log).Contiguous ∧ (op.apply log).toIndexed = log.toIndexed.execute op := by
  cases op with
  | append entries => exact ⟨h.append hop none, h.toIndexed_append hop⟩
  | truncateAfter index => exact ⟨h.truncateAfter index, h.toIndexed_truncateAfter index⟩
  | compact s t => exact ⟨h.compact s t, h.toIndexed_compact s t⟩

/-- From every contiguous log, after every sequence of appends at the end, truncations and
compactions, the log is contiguous, stands for the sequence under the same operations, and answers
every query as the sequence does. -/
theorem refines_indexedLog (log : RaftLog) (h : log.Contiguous) (ops : List Op)
    (hops : Along Op.apply AppendsAtEnd log ops) :
    let log' := run Op.apply log ops
    let a := run IndexedLog.execute log.toIndexed ops
    log'.Contiguous ∧ log'.toIndexed = a ∧ (∀ i, log'.get i = a.get i) ∧
      (∀ i, log'.termAt i = a.termAt i) ∧ (∀ i t, log'.matchTerm i t ↔ a.matchTerm i t) ∧
      log'.lastIndex = a.lastIndex ∧ log'.lastTerm = a.lastTerm ∧
      ∀ i, log'.entriesFrom i = a.entriesFrom i := by
  intro log' a
  have hrun : log'.Contiguous ∧ log'.toIndexed = a := by
    refine run_invariant Op.apply (fun ops =>
      (run Op.apply log ops).Contiguous ∧
        (run Op.apply log ops).toIndexed = run IndexedLog.execute log.toIndexed ops)
      ⟨h, rfl⟩ ?_ hops
    rintro es op _ ⟨hcontiguous, heq⟩ hop
    rw [run_snoc, run_snoc, ← heq]
    exact hcontiguous.execute hop
  obtain ⟨hcontiguous, heq⟩ := hrun
  rw [← heq]
  exact ⟨hcontiguous, rfl, hcontiguous.get_eq, hcontiguous.termAt_eq, hcontiguous.matchTerm_iff,
    hcontiguous.lastIndex_toIndexed, hcontiguous.lastTerm_toIndexed,
    hcontiguous.entriesFrom_toIndexed⟩

end

/-- A log that is compacted in its middle, truncated before the snapshot and behind it, and
compacted past its end. -/
theorem refines_indexedLog_pastEnd :
    letI := Crc32.ieee
    let log : RaftLog :=
      ⟨[⟨3, 1, [], .normal⟩, ⟨4, 1, [], .normal⟩], WalWriter.openFile [], 2, 1⟩
    let ops : List Op := [.append [⟨5, 2, [7], .normal⟩], .truncateAfter 4, .compact 3 1,
      .truncateAfter 2, .append [⟨4, 3, [], .noop⟩], .compact 9 3]
    log.Contiguous ∧ Along Op.apply AppendsAtEnd log ops ∧
      (run IndexedLog.execute log.toIndexed ops).lastIndex = 9 := by
  intro log ops
  have hops : Along (@Op.apply Crc32.ieee) AppendsAtEnd log ops := by decide +kernel
  refine ⟨by decide, hops, ?_⟩
  have hlast := (@refines_indexedLog Crc32.ieee log (by decide) ops hops).2.2.2.2.2.1
  rw [← hlast]
  decide +kernel

end RaftLog

end Raftrust.Consensus
