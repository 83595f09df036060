import Raftrust.Consensus.Node
import Raftrust.Lib.History

/-!
# Positions in the log, and the merge loop

A log is contiguous when every entry carries the index of its position behind the snapshot. On
entries that are numbered one after the other and start inside the log or right at its end, the
merge loop of a follower is `splice`.
-/

namespace Raftrust.Consensus

open Lib Storage

/-! ### Numbered entries -/

/-- The entries carry the indices from `b + 1` on. -/
def NumberedFrom (b : LogIndex) (es : List LogEntry) : Prop :=
  ∀ (j : ℕ) (e : LogEntry), es[j]? = some e → e.index = b + j + 1

namespace NumberedFrom

variable {b : LogIndex} {e : LogEntry} {es es' : List LogEntry}

lemma nil : NumberedFrom b [] := by
  intro j e h
  simp at h

lemma cons_iff : NumberedFrom b (e :: es) ↔ e.index = b + 1 ∧ NumberedFrom (b + 1) es := by
  constructor
  · intro h
    refine ⟨h 0 e rfl, fun j x hx => ?_⟩
    have := h (j + 1) x hx
    lia
  · rintro ⟨he, hes⟩ j x hx
    cases j with
    | zero => simpa [← Option.some.inj hx] using he
    | succ j =>
      have := hes j x hx
      lia

instance decidable : ∀ (b : LogIndex) (es : List LogEntry), Decidable (NumberedFrom b es)
  | _, [] => .isTrue nil
  | b, e :: es =>
    have := decidable (b + 1) es
    decidable_of_iff (e.index = b + 1 ∧ NumberedFrom (b + 1) es) cons_iff.symm

lemma append (h : NumberedFrom b es) (h' : NumberedFrom (b + es.length) es') :
    NumberedFrom b (es ++ es') := by
  intro j x hx
  by_cases hj : j < es.length
  · rw [List.getElem?_append_left hj] at hx
    exact h j x hx
  · rw [List.getElem?_append_right (not_lt.mp hj)] at hx
    have := h' _ x hx
    lia

lemma of_isPrefix (h : NumberedFrom b es) (hp : es' <+: es) : NumberedFrom b es' :=
  fun j x hx => h j x (getElem?_of_isPrefix hp hx)

lemma drop (h : NumberedFrom b es) (k : ℕ) : NumberedFrom (b + k) (es.drop k) := by
  intro j x hx
  rw [List.getElem?_drop] at hx
  have := h _ x hx
  lia

lemma index_gt (h : NumberedFrom b es) (he : e ∈ es) : b < e.index := by
  obtain ⟨j, hj⟩ := List.getElem?_of_mem he
  have := h j e hj
  lia

end NumberedFrom

namespace RaftLog

variable {log : RaftLog}

/-- Every entry carries the index of its position. -/
def Contiguous (log : RaftLog) : Prop :=
  NumberedFrom log.snapshotIndex log.entries
  deriving Decidable

lemma Contiguous.lastIndex_eq (h : log.Contiguous) :
    log.lastIndex = log.snapshotIndex + log.entries.length := by
  unfold lastIndex
  cases hl : log.entries.getLast? with
  | none =>
    rw [List.getLast?_eq_none_iff] at hl
    simp [hl]
  | some e =>
    rw [List.getLast?_eq_getElem?] at hl
    have hlen := (List.getElem?_eq_some_iff.mp hl).1
    have := h _ e hl
    dsimp only
    lia

lemma get_of_lt {i : LogIndex} (h : log.snapshotIndex < i) :
    log.get i = log.entries[i - log.snapshotIndex - 1]? :=
  if_neg (by lia)

lemma get_of_base (hbase : log.snapshotIndex = 0) {i : LogIndex} (hi : 0 < i) :
    log.get i = log.entries[i - 1]? := by
  rw [get_of_lt (by lia), hbase, Nat.sub_zero]

lemma termAt_of_base (hbase : log.snapshotIndex = 0) {i : LogIndex} (hi : 0 < i) :
    log.termAt i = (log.entries[i - 1]?).map LogEntry.term := by
  rw [termAt, if_neg hi.ne', if_neg (by rw [hbase]; exact hi.ne'), get_of_base hbase hi]

/-- The position is `0` at the snapshot and before it. -/
lemma entriesFrom_eq_drop (log : RaftLog) (i : LogIndex) :
    log.entriesFrom i = log.entries.drop (i - log.snapshotIndex - 1) := by
  rw [RaftLog.entriesFrom]
  split
  · next hle =>
    have hzero : i - log.snapshotIndex - 1 = 0 := by lia
    rw [hzero, List.drop_zero]
  · dsimp only
    split
    · next hshort => exact (List.drop_of_length_le hshort).symm
    · rfl

lemma entriesFrom_of_base (hbase : log.snapshotIndex = 0) (i : LogIndex) :
    log.entriesFrom i = log.entries.drop (i - 1) := by
  rw [entriesFrom_eq_drop, hbase, Nat.sub_zero]

lemma get_eq_none {i : LogIndex} (h : log.snapshotIndex + log.entries.length < i) :
    log.get i = none := by
  rw [get_of_lt (by lia), List.getElem?_eq_none_iff]
  lia

lemma Contiguous.isSome_get (h : log.Contiguous) {i : LogIndex}
    (hi : log.snapshotIndex < i) (hi' : i ≤ log.lastIndex) : (log.get i).isSome = true := by
  rw [h.lastIndex_eq] at hi'
  rw [get_of_lt hi, Option.isSome_iff_ne_none, ne_eq, List.getElem?_eq_none_iff]
  lia

lemma Contiguous.index_of_get (h : log.Contiguous) {i : LogIndex} {e : LogEntry}
    (he : log.get i = some e) : e.index = i := by
  by_cases hi : i = 0 ∨ i ≤ log.snapshotIndex
  · rw [get, if_pos hi] at he
    cases he
  · rw [get, if_neg hi] at he
    have := h _ e he
    lia

lemma Contiguous.le_lastIndex_of_get (h : log.Contiguous) {i : LogIndex}
    (hi : (log.get i).isSome = true) : i ≤ log.lastIndex := by
  by_contra hlt
  rw [h.lastIndex_eq, not_le] at hlt
  rw [get_eq_none hlt] at hi
  cases hi

lemma truncateAfter_entries (log : RaftLog) {i : LogIndex} (h : log.snapshotIndex ≤ i) :
    log.truncateAfter i =
      { log with entries := log.entries.take (i - log.snapshotIndex) } := by
  unfold truncateAfter
  split
  · next hle =>
    obtain rfl : i = log.snapshotIndex := le_antisymm hle h
    simp
  · rfl

lemma Contiguous.truncateAfter (h : log.Contiguous) (i : LogIndex) :
    (log.truncateAfter i).Contiguous := by
  unfold RaftLog.truncateAfter
  split
  · exact NumberedFrom.nil
  · exact h.of_isPrefix (List.take_prefix _ _)

lemma compact_of_le (log : RaftLog) {i : LogIndex} (h : i ≤ log.snapshotIndex) (t : Term) :
    log.compact i t = log :=
  if_pos h

lemma compact_of_lt (log : RaftLog) {i : LogIndex} (h : log.snapshotIndex < i) (t : Term) :
    log.compact i t =
      { log with
        entries := log.entries.drop (i - log.snapshotIndex)
        snapshotIndex := i
        snapshotTerm := t } := by
  have hdrop : (if log.entries.length ≤ i - log.snapshotIndex then []
      else log.entries.drop (i - log.snapshotIndex)) =
        log.entries.drop (i - log.snapshotIndex) := by
    split
    · next hshort => exact (List.drop_of_length_le hshort).symm
    · rfl
  simp only [compact, if_neg (not_le.mpr h), hdrop]

lemma compact_lastIndex (log : RaftLog) (i : LogIndex) (t : Term) :
    (log.compact i t).lastIndex =
      if log.snapshotIndex < i ∧ log.snapshotIndex + log.entries.length ≤ i then i
      else log.lastIndex := by
  rcases Nat.lt_or_ge log.snapshotIndex i with hgt | hle
  · rw [compact_of_lt log hgt]
    simp only [lastIndex, List.getLast?_drop]
    by_cases hall : log.entries.length ≤ i - log.snapshotIndex
    · rw [if_pos hall, if_pos ⟨hgt, by lia⟩]
    · have hne : log.entries ≠ [] := by
        rintro hnil
        exact hall (by simp [hnil])
      rw [if_neg hall, if_neg fun h => hall (by lia), List.getLast?_eq_some_getLast hne]
  · rw [compact_of_le log hle, if_neg fun h => absurd h.1 (not_lt.mpr hle)]

lemma Contiguous.compact (h : log.Contiguous) (s : LogIndex) (t : Term) :
    (log.compact s t).Contiguous := by
  rcases Nat.lt_or_ge log.snapshotIndex s with hs | hs
  · rw [compact_of_lt log hs]
    have := NumberedFrom.drop h (s - log.snapshotIndex)
    rwa [Nat.add_sub_cancel' hs.le] at this
  · rwa [compact_of_le log hs]

variable [Crc32]

lemma append_snapshotIndex (log : RaftLog) (es : List LogEntry) (fault : Option WalFault) :
    (log.append es fault).1.snapshotIndex = log.snapshotIndex := by
  cases fault <;> rfl

lemma append_snapshotTerm (log : RaftLog) (es : List LogEntry) (fault : Option WalFault) :
    (log.append es fault).1.snapshotTerm = log.snapshotTerm := by
  cases fault <;> rfl

/-- In memory, an append adds the entries or, when the write fails, nothing. -/
lemma append_entries (log : RaftLog) (es : List LogEntry) (fault : Option WalFault) :
    (log.append es fault).1.entries = log.entries ++ if fault = none then es else [] := by
  cases fault <;> simp [append]

lemma Contiguous.append (h : log.Contiguous) {es : List LogEntry}
    (hes : NumberedFrom log.lastIndex es) (fault : Option WalFault) :
    (log.append es fault).1.Contiguous := by
  unfold Contiguous
  rw [append_snapshotIndex, append_entries]
  refine NumberedFrom.append h ?_
  rw [← h.lastIndex_eq]
  split
  · exact hes
  · exact NumberedFrom.nil

end RaftLog

/-! ### The merge loop -/

namespace RaftNode

open RaftLog

/-- Entries behind the end of the log are all new. -/
lemma foldl_mergeEntry_of_get_none {log : RaftLog} {es : List LogEntry}
    (h : ∀ e ∈ es, log.get e.index = none) (new : List LogEntry) :
    es.foldl mergeEntry (log, new) = (log, new ++ es) := by
  induction es generalizing new with
  | nil => simp
  | cons e es ih =>
    have he : mergeEntry (log, new) e = (log, new ++ [e]) := by
      simp [mergeEntry, h e List.mem_cons_self]
    rw [List.foldl_cons, he, ih fun x hx => h x (List.mem_cons_of_mem e hx)]
    simp

/-- The loop cuts the log somewhere and collects what comes after the cut: put together, the
entries spliced over the log. -/
lemma foldl_mergeEntry (log : RaftLog) {b : LogIndex} {es : List LogEntry}
    (hes : NumberedFrom b es) (hb : log.snapshotIndex ≤ b)
    (hb' : b ≤ log.snapshotIndex + log.entries.length) :
    ∃ k new, es.foldl mergeEntry (log, []) = ({ log with entries := log.entries.take k }, new) ∧
      log.entries.take k ++ new = log.entries.take (b - log.snapshotIndex) ++
        splice LogEntry.term (log.entries.drop (b - log.snapshotIndex)) es := by
  induction es generalizing b with
  | nil => exact ⟨log.entries.length, [], by simp⟩
  | cons e es ih =>
    obtain ⟨hindex, hrest⟩ := NumberedFrom.cons_iff.mp hes
    rcases hb'.lt_or_eq with hlt | heq
    · have hpos : b - log.snapshotIndex < log.entries.length := by lia
      have hget : log.get e.index = some log.entries[b - log.snapshotIndex] := by
        rw [hindex, get_of_lt (by lia), ← List.getElem?_eq_getElem hpos]
        congr 1
        lia
      rw [List.drop_eq_getElem_cons hpos, splice_cons_cons]
      by_cases hterm : log.entries[b - log.snapshotIndex].term = e.term
      · -- the entry is there: skip it
        obtain ⟨k, new, hfold, htake⟩ := ih hrest (by lia) (by lia)
        refine ⟨k, new, ?_, ?_⟩
        · simpa [mergeEntry, hget, hterm] using hfold
        · rw [if_pos hterm, htake, Nat.succ_sub hb, List.take_succ_eq_append_getElem hpos,
            List.append_assoc]
          rfl
      · -- a conflict: cut here, and everything from here on is new
        have hcut : mergeEntry (log, []) e =
            ({ log with entries := log.entries.take (b - log.snapshotIndex) }, [e]) := by
          have hprev : e.index - 1 = b := by lia
          simp [mergeEntry, hget, hterm, hprev, truncateAfter_entries log hb]
        refine ⟨b - log.snapshotIndex, e :: es, ?_, ?_⟩
        · rw [List.foldl_cons, hcut, foldl_mergeEntry_of_get_none]
          · rfl
          · intro x hx
            apply get_eq_none
            have := hrest.index_gt hx
            simp only [List.length_take]
            lia
        · rw [if_neg hterm]
    · -- the end of the log
      refine ⟨log.entries.length, e :: es, ?_, ?_⟩
      · rw [foldl_mergeEntry_of_get_none]
        · simp
        · intro x hx
          apply get_eq_none
          have := hes.index_gt hx
          lia
      · simp [heq]

lemma foldl_mergeEntry_snapshot (es : List LogEntry) (merged : RaftLog × List LogEntry) :
    (es.foldl mergeEntry merged).1.snapshotIndex = merged.1.snapshotIndex ∧
      (es.foldl mergeEntry merged).1.snapshotTerm = merged.1.snapshotTerm := by
  induction es generalizing merged with
  | nil => exact ⟨rfl, rfl⟩
  | cons e es ih =>
    rw [List.foldl_cons, (ih _).1, (ih _).2]
    unfold mergeEntry
    split
    · split
      · dsimp only [truncateAfter]
        split <;> exact ⟨rfl, rfl⟩
      · exact ⟨rfl, rfl⟩
    · exact ⟨rfl, rfl⟩

variable [Crc32]

lemma mergeEntries_snapshot (log : RaftLog) (es : List LogEntry) (fault : Option WalFault) :
    (mergeEntries log es fault).snapshotIndex = log.snapshotIndex ∧
      (mergeEntries log es fault).snapshotTerm = log.snapshotTerm := by
  unfold mergeEntries
  dsimp only
  split
  · exact foldl_mergeEntry_snapshot es (log, [])
  · rw [append_snapshotIndex, append_snapshotTerm]
    exact foldl_mergeEntry_snapshot es (log, [])

lemma mergeEntries_cases (log : RaftLog) (es : List LogEntry) (fault : Option WalFault) :
    ∃ log' new, es.foldl mergeEntry (log, []) = (log', new) ∧
      (mergeEntries log es fault).snapshotIndex = log'.snapshotIndex ∧
      (mergeEntries log es fault).entries =
        log'.entries ++ if fault = none then new else [] := by
  refine ⟨_, _, rfl, ?_⟩
  unfold mergeEntries
  dsimp only
  split
  · next hnew =>
    rw [List.isEmpty_iff] at hnew
    simp [hnew]
  · exact ⟨append_snapshotIndex _ _ _, append_entries _ _ _⟩

/-- What a follower's log is after a merge: the entries spliced over it, or when the write fails,
what the loop had left standing. -/
theorem mergeEntries_entries (log : RaftLog) {b : LogIndex} {es : List LogEntry}
    (hes : NumberedFrom b es) (hb : log.snapshotIndex ≤ b)
    (hb' : b ≤ log.snapshotIndex + log.entries.length) (fault : Option WalFault) :
    (mergeEntries log es fault).snapshotIndex = log.snapshotIndex ∧
      ((mergeEntries log es fault).entries = log.entries.take (b - log.snapshotIndex) ++
          splice LogEntry.term (log.entries.drop (b - log.snapshotIndex)) es ∨
        (fault ≠ none ∧ (mergeEntries log es fault).entries <+: log.entries)) := by
  obtain ⟨k, new, hfold, htake⟩ := foldl_mergeEntry log hes hb hb'
  obtain ⟨log', new', hfold', hs, he⟩ := mergeEntries_cases log es fault
  obtain ⟨rfl, rfl⟩ := Prod.mk.inj (hfold.symm.trans hfold')
  refine ⟨hs, ?_⟩
  by_cases hfault : fault = none
  · rw [he, if_pos hfault]
    exact .inl htake
  · rw [he, if_neg hfault, List.append_nil]
    exact .inr ⟨hfault, List.take_prefix _ _⟩

end RaftNode

end Raftrust.Consensus
