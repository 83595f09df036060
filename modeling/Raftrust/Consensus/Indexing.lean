import Raftrust.Consensus.ElectionSafety
import Raftrust.Consensus.LogEffect

/-!
# Indices and snapshots

A compacted leader that has to go back behind its snapshot sends what it still has, with a request
that skips the consistency check. A follower whose log does not reach that far appends the entries
in the wrong place. As long as the entries of every accepted request start inside the receiver's
log or right behind it, all logs stay contiguous.
-/

namespace Raftrust.Consensus

open Lib Storage

/-- Entries at every index between the snapshot and the last index, each carrying its index, and
no others. -/
structure RaftLog.WellIndexed (log : RaftLog) : Prop where
  get_index : ∀ i, log.snapshotIndex < i → i ≤ log.lastIndex →
    ∃ e, log.get i = some e ∧ e.index = i
  get_range : ∀ i e, log.get i = some e → log.snapshotIndex < i ∧ i ≤ log.lastIndex
  index_range : ∀ e ∈ log.entries, log.snapshotIndex < e.index ∧ e.index ≤ log.lastIndex

lemma RaftLog.Contiguous.wellIndexed {log : RaftLog} (h : log.Contiguous) : log.WellIndexed where
  get_index := by
    intro i hlt hle
    rw [h.lastIndex_eq] at hle
    have hi : i - log.snapshotIndex - 1 < log.entries.length := by lia
    refine ⟨log.entries[i - log.snapshotIndex - 1], ?_, ?_⟩
    · rw [get_of_lt hlt, List.getElem?_eq_getElem]
    · have := h _ _ (List.getElem?_eq_getElem hi)
      lia
  get_range := by
    intro i e he
    have hlt : log.snapshotIndex < i := by
      by_contra hle
      simp [get, not_lt.mp hle] at he
    rw [get_of_lt hlt] at he
    have := (List.getElem?_eq_some_iff.mp he).1
    rw [h.lastIndex_eq]
    exact ⟨hlt, by lia⟩
  index_range := by
    intro e he
    obtain ⟨j, hj⟩ := List.getElem?_of_mem he
    have hidx := h j e hj
    have hlen := (List.getElem?_eq_some_iff.mp hj).1
    rw [h.lastIndex_eq]
    exact ⟨by lia, by lia⟩

namespace RaftNode

/-- The entries of a request that is accepted start inside the log or right behind it. -/
def StartsInLog (n : RaftNode) (call : Call) : Prop :=
  ∀ request ∈ call.request, n.Accepts request → ∀ e ∈ request.entries.head?,
    n.log.snapshotIndex < e.index ∧ e.index ≤ n.log.lastIndex + 1
  deriving Decidable

end RaftNode

/-! ### Requests and merges -/

lemma NumberedFrom.splice {b : LogIndex} {L es : List LogEntry} (h : NumberedFrom b L)
    (h' : NumberedFrom b es) : NumberedFrom b (splice LogEntry.term L es) := by
  induction L generalizing b es with
  | nil => simpa using h'
  | cons x L ih =>
    cases es with
    | nil => exact h
    | cons e es =>
      rw [splice_cons_cons]
      split
      · rw [NumberedFrom.cons_iff] at h h' ⊢
        exact ⟨h.1, ih h.2 h'.2⟩
      · exact h'

lemma RaftLog.Contiguous.entriesFrom {log : RaftLog} (h : log.Contiguous) (i : LogIndex) :
    ∃ b, NumberedFrom b (log.entriesFrom i) := by
  unfold RaftLog.entriesFrom
  split
  · exact ⟨_, h⟩
  · dsimp only
    split
    · exact ⟨0, NumberedFrom.nil⟩
    · exact ⟨_, h.drop _⟩

lemma RaftLog.Contiguous.mergeEntries [Crc32] {log : RaftLog} (h : log.Contiguous) {b : LogIndex}
    {es : List LogEntry} (hes : NumberedFrom b es)
    (hstart : ∀ e ∈ es.head?, log.snapshotIndex < e.index ∧ e.index ≤ log.lastIndex + 1)
    (fault : Option WalFault) : (RaftNode.mergeEntries log es fault).Contiguous := by
  cases es with
  | nil => simpa [RaftNode.mergeEntries] using h
  | cons e es =>
    obtain ⟨hlt, hle⟩ := hstart e rfl
    have hindex := (NumberedFrom.cons_iff.mp hes).1
    rw [h.lastIndex_eq] at hle
    have hb : log.snapshotIndex ≤ b := by lia
    have hb' : b ≤ log.snapshotIndex + log.entries.length := by lia
    obtain ⟨hs, hentries⟩ := RaftNode.mergeEntries_entries log hes hb hb' fault
    unfold RaftLog.Contiguous
    rw [hs]
    rcases hentries with heq | ⟨-, hpre⟩
    · rw [heq]
      refine (h.of_isPrefix (List.take_prefix _ _)).append ?_
      have hdrop := h.drop (b - log.snapshotIndex)
      rw [List.length_take, min_eq_left (by lia)]
      rw [Nat.add_sub_cancel' hb] at hdrop ⊢
      exact hdrop.splice hes
    · exact h.of_isPrefix hpre

/-! ### Whole runs -/

namespace Cluster

/-- The step delivers no request whose entries lie outside the receiver's log. -/
def StartsInLog (c : Cluster) (e : Event) : Prop :=
  (c.nodes e.node).StartsInLog e.call
  deriving Decidable

/-- All logs are contiguous and all requests numbered. -/
structure Indexed (c : Cluster) : Prop where
  logs : ∀ n, (c.nodes n).log.Contiguous
  requests : ∀ target request, Packet.appendRequest target request ∈ c.network →
    ∃ b, NumberedFrom b request.entries

lemma Indexed.init (T : Topology) : Indexed (init T) where
  logs := fun _ => NumberedFrom.nil
  requests := by simp [Cluster.init]

variable [Crc32] [ConfigJson]

lemma Indexed.execute {c : Cluster} (h : Indexed c) {k : NodeId} {call : Call}
    (hpacket : ∀ p, call.packet k = some p → p ∈ c.network) (fault : Option WalFault)
    (hstart : (c.nodes k).StartsInLog call) :
    Indexed (c.put k ((c.nodes k).execute fault call).1 ((c.nodes k).execute fault call).2) where
  logs := by
    intro m
    rcases eq_or_ne m k with rfl | hm
    swap
    · rw [put_nodes_of_ne c hm]
      exact h.logs m
    rw [put_nodes_self]
    have hlog := h.logs m
    cases (c.nodes m).execute_logEffect fault call with
    | kept heq => rwa [heq]
    | appended data ty _ _ heq =>
      rw [heq]
      refine hlog.append ?_ fault
      exact NumberedFrom.cons_iff.mpr ⟨rfl, NumberedFrom.nil⟩
    | merged request hcall haccepts _ _ heq =>
      subst hcall
      obtain ⟨b, hb⟩ := h.requests m request (hpacket _ rfl)
      rw [heq]
      exact hlog.mergeEntries hb (hstart request rfl haccepts) fault
    | compacted s t _ heq =>
      rw [heq]
      exact hlog.compact s t
  requests := by
    intro target request hmem
    rcases mem_network_put.mp hmem with hmem | hmem
    · exact h.requests target request hmem
    · obtain ⟨-, -, -, leader, -, rfl⟩ := (c.nodes k).appendRequest_of_sent fault hmem
      exact (h.logs k).entriesFrom _

lemma indexed (T : Topology) {es : List Event}
    (h : Along (step T) StartsInLog (init T) es) : Indexed (after T es) := by
  refine run_invariant (step T) (fun es => Indexed (after T es)) (Indexed.init T) ?_ h
  intro es e _ hindexed hstart
  rw [after_snoc]
  rcases step_cases T (after T es) e with ⟨-, heq⟩ | ⟨⟨-, hpacket⟩, heq⟩
  · rwa [heq]
  · rw [heq]
    exact hindexed.execute hpacket e.fault hstart

/-- In every run whose accepted requests start inside the receiver's log, every log has exactly
the entries between its snapshot and its last index, each at its index. -/
theorem wellIndexed_of_startsInLog (T : Topology) (es : List Event)
    (h : Along (step T) StartsInLog (init T) es) (n : NodeId) :
    ((after T es).nodes n).log.WellIndexed :=
  ((indexed T h).logs n).wellIndexed

end Cluster

/-! ### Two runs -/

namespace Cluster

open scoped Runs

/-- Node 1 is elected, brings node 2 up to date and commits, takes a snapshot, proposes and sends
again. -/
def snapshotAndPropose : List Event :=
  plainElection ++
  [⟨1, .createAppendRequests, none⟩,
    ⟨2, .appendEntries ⟨1, 1, 0, 0, [⟨1, 1, [], .noop⟩], 0⟩, none⟩,
    ⟨1, .appendResponse 2 ⟨1, true, 1⟩, none⟩,
    ⟨1, .triggerSnapshot [] .written, none⟩,
    ⟨1, .propose [7], none⟩,
    ⟨1, .createAppendRequests, none⟩]

/-- Node 2, which has all that went into the snapshot, gets the next entry. -/
def snapshotAndGoOn : List Event :=
  snapshotAndPropose ++
    [⟨2, .appendEntries ⟨1, 1, 1, 1, [⟨2, 1, [7], .normal⟩], 1⟩, none⟩]

theorem wellIndexed_of_startsInLog_snapshotAndGoOn :
    let c := after .three snapshotAndGoOn
    Along (step .three) StartsInLog (init .three) snapshotAndGoOn ∧
      (c.nodes 1).log.snapshotIndex = 1 ∧ (c.nodes 2).log.lastIndex = 2 ∧
      ∀ n, (c.nodes n).log.WellIndexed := by
  have hstart : Along (step .three) StartsInLog (init .three) snapshotAndGoOn := by decide +kernel
  refine ⟨hstart, by decide +kernel, by decide +kernel, ?_⟩
  exact wellIndexed_of_startsInLog .three _ hstart

/-- Node 3, which has nothing yet, gets the next entry. -/
def snapshotAndLag : List Event :=
  snapshotAndPropose ++
    [⟨3, .appendEntries ⟨1, 1, 0, 0, [⟨2, 1, [7], .normal⟩], 1⟩, none⟩]

/-- Node 3 takes entry 2 for its first: its last index is 2, but it has no entry there. -/
theorem snapshotAndLag_gap :
    let log := ((after .three snapshotAndLag).nodes 3).log
    UniqueLeaders .three snapshotAndLag ∧
      log.snapshotIndex < 2 ∧ 2 ≤ log.lastIndex ∧ log.get 2 = none := by
  refine ⟨uniqueLeaders .three (by decide +kernel), ?_⟩
  decide +kernel

end Cluster

end Raftrust.Consensus
