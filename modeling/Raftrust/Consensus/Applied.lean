import Raftrust.Consensus.Progress

/-!
# Entries handed out to be applied

A node hands out each committed entry once, in order, for the state machine to apply. It counts what
it has handed out in `lastApplied`, and skips what the log no longer holds; a snapshot taken at the
commit index discards entries whether or not they were handed out.
-/

namespace Raftrust.Consensus

open Lib Storage

/-! ### Committed entries of a log -/

namespace RaftNode

/-- If the log agrees with a list `L` where it is read, what is read is a part of `L`. -/
lemma committedFrom_eq {log : RaftLog} {L : List LogEntry} {applied : LogIndex} {count : ℕ}
    (h : ∀ i, applied < i → i ≤ applied + count → log.get i = L[i - 1]?) :
    committedFrom log applied count = (L.drop applied).take count := by
  induction count generalizing applied with
  | zero => simp [committedFrom]
  | succ count ih =>
    have hfirst : log.get (applied + 1) = L[applied]? := h (applied + 1) (by lia) (by lia)
    rw [committedFrom, hfirst, ih fun i hi hi' => h i (by lia) (by lia)]
    cases hL : L[applied]? with
    | none =>
      rw [List.getElem?_eq_none_iff] at hL
      simp [List.drop_eq_nil_of_le hL, List.drop_eq_nil_of_le (hL.trans (Nat.le_succ _))]
    | some e =>
      obtain ⟨hlt, rfl⟩ := List.getElem?_eq_some_iff.mp hL
      rw [List.drop_eq_getElem_cons hlt, List.take_succ_cons]
      rfl

/-- If the log holds everything that is read, it is read without gaps. -/
lemma committedFrom_of_isSome {log : RaftLog} {applied : LogIndex} {count : ℕ}
    (h : ∀ i, applied < i → i ≤ applied + count → (log.get i).isSome = true) :
    (committedFrom log applied count).length = count ∧
      ∀ j < count, (committedFrom log applied count)[j]? = log.get (applied + j + 1) := by
  induction count generalizing applied with
  | zero => simp [committedFrom]
  | succ count ih =>
    obtain ⟨e, he⟩ := Option.isSome_iff_exists.mp (h (applied + 1) (by lia) (by lia))
    obtain ⟨hlen, hget⟩ := @ih (applied + 1) fun i hi hi' => h i (by lia) (by lia)
    rw [committedFrom, he]
    refine ⟨by simp [hlen], ?_⟩
    intro j hj
    cases j with
    | zero => simpa using he.symm
    | succ j =>
      have := hget j (by lia)
      rw [show applied + 1 + j + 1 = applied + (j + 1) + 1 by lia] at this
      simpa using this

/-! ### What calls do to the applied index -/

variable [Crc32] [ConfigJson] (n : RaftNode)

omit [Crc32] [ConfigJson] in
lemma observeTerm_lastApplied (t : Term) :
    (n.observeTerm t).state.lastApplied = n.state.lastApplied := by
  unfold observeTerm
  split <;> rfl

omit [ConfigJson] in
/-- A snapshot compacts the log at the commit index and leaves the rest of the node alone. -/
lemma triggerSnapshot_snapshotIndex (data : Bytes) (files : SnapshotFiles) :
    let n' := (n.triggerSnapshot data files).1
    n'.state = n.state ∧ n.log.snapshotIndex ≤ n'.log.snapshotIndex ∧
      (n'.log.snapshotIndex = n.log.snapshotIndex ∨
        ((files == .written) = true ∧ n'.log.snapshotIndex = n.state.commitIndex)) := by
  unfold triggerSnapshot
  dsimp only
  split
  · exact ⟨rfl, le_rfl, .inl rfl⟩
  · cases files with
    | noDirectory => exact ⟨rfl, le_rfl, .inl rfl⟩
    | writeFails => exact ⟨rfl, le_rfl, .inl rfl⟩
    | written =>
      refine ⟨rfl, ?_⟩
      simp only [RaftLog.compact]
      split
      · exact ⟨le_rfl, .inl rfl⟩
      · next hlt => exact ⟨(not_le.mp hlt).le, .inr ⟨rfl, rfl⟩⟩

omit [ConfigJson] in
lemma OwnAppend.lastApplied {m n' : RaftNode} {fault : Option WalFault}
    (h : OwnAppend m fault n') : n'.state.lastApplied = m.state.lastApplied := by
  obtain ⟨log, leaderState, rfl⟩ := h.exists_eq
  rfl

lemma execute_quiet_lastApplied (fault : Option WalFault) {call : Call}
    (h : call.isQuiet = true) (htake : call ≠ .takeCommittedEntries) :
    (n.execute fault call).1.state.lastApplied = n.state.lastApplied := by
  obtain ⟨lastApplied, readIndexState, transferState, heq, hn⟩ := n.execute_quiet_eq fault h
  rw [hn]
  exact heq.resolve_left htake

/-- Only handing out entries counts them. -/
lemma execute_lastApplied (fault : Option WalFault) {call : Call}
    (hsnap : call.isSnapshot = false) (htake : call ≠ .takeCommittedEntries) :
    (n.execute fault call).1.state.lastApplied = n.state.lastApplied := by
  cases n.execute_outcome fault call with
  | kept heq => rw [heq]
  | preVote heq => rw [heq]; rfl
  | election heq => rw [heq]; rfl
  | observed t _ heq => rw [heq, observeTerm_lastApplied]
  | granted request _ heq => rw [heq]; exact n.observeTerm_lastApplied request.term
  | counted _ _ _ _ _ _ heq => rw [heq]
  | elected _ _ heq => rw [heq]; rfl
  | followed request _ _ _ heq => rw [heq]; exact n.observeTerm_lastApplied request.term
  | acknowledged _ _ _ _ _ _ _ _ _ heq => rw [heq]; rfl
  | proposed happend => exact happend.lastApplied
  | reconfigured _ _ happend => exact happend.lastApplied
  | compacted _ _ hcall => simp [hsnap] at hcall
  | installed _ _ _ hcall => simp [hsnap] at hcall
  | quiet hquiet => exact n.execute_quiet_lastApplied fault hquiet htake

/-- Where nothing of the committed part is lost, the commit index stays within the log and never
falls. -/
lemma execute_commitIndex_le (fault : Option WalFault) {call : Call}
    (hsnap : call.isSnapshot = false)
    (hlast : n.state.commitIndex ≤ (n.execute fault call).1.log.lastIndex)
    (hcontiguous : (n.execute fault call).1.log.Contiguous) :
    n.state.commitIndex ≤ (n.execute fault call).1.state.commitIndex ∧
      (n.execute fault call).1.state.commitIndex ≤ (n.execute fault call).1.log.lastIndex := by
  cases n.execute_commitEffect fault hsnap with
  | kept commit => exact ⟨commit.ge, commit.trans_le hlast⟩
  | followed request _ _ commit later =>
    rw [commit]
    exact ⟨le_min later.le hlast, min_le_right _ _⟩
  | advanced leader _ _ _ own later =>
    obtain ⟨e, he, -⟩ := own
    exact ⟨later.le, hcontiguous.le_lastIndex_of_get (by rw [he]; rfl)⟩

end RaftNode

/-! ### Runs that hand out entries -/

namespace Call

/-- The call compacts the log at the commit index. -/
def compacts : Call → Bool
  | triggerSnapshot _ files => files == .written
  | _ => false

def installs : Call → Bool
  | installSnapshot _ _ _ _ _ => true
  | _ => false

end Call

/-- The entries a call hands out. -/
def RaftNode.handedOut (n : RaftNode) : Call → List LogEntry
  | .takeCommittedEntries => n.takeCommittedEntries.2
  | _ => []

/-- A node, the entries it has handed out so far, and the entries it has committed so far: those its
log held when the commit index came to them. -/
structure Application where
  node : RaftNode
  taken : List LogEntry
  committed : List LogEntry

namespace Application

def init (config : NodeConfig) : Application where
  node := Cluster.freshNode config
  taken := []
  committed := []

section

variable [Crc32] [ConfigJson]

def step (s : Application) (e : NodeEvent) : Application :=
  let n := s.node.step e
  { node := n
    taken := s.taken ++ s.node.handedOut e.call
    committed := s.committed ++ RaftNode.committedFrom n.log s.committed.length
      (n.state.commitIndex - s.committed.length) }

/-- Only taking entries hands them out. -/
lemma taken_step_of_ne {s : Application} {e : NodeEvent} (h : e.call ≠ .takeCommittedEntries) :
    (s.step e).taken = s.taken := by
  have hnone : s.node.handedOut e.call = [] := by
    cases hcall : e.call with
    | takeCommittedEntries => exact absurd hcall h
    | _ => rfl
  rw [step, hnone, List.append_nil]

/-- No snapshot is installed, indices stay contiguous, and what is committed stays in the log until
it is compacted away. -/
def KeepsCommitted (s : Application) (e : NodeEvent) : Prop :=
  e.call.installs = false ∧ (s.step e).node.log.Contiguous ∧
    ∀ i ≤ s.node.state.commitIndex, (s.step e).node.log.snapshotIndex < i →
      (s.step e).node.log.get i = s.node.log.get i
  deriving Decidable

end

/-- A snapshot is only taken when everything committed has been handed out. -/
def SnapshotsApplied (s : Application) (e : NodeEvent) : Prop :=
  e.call.compacts = true → s.node.state.commitIndex ≤ s.node.state.lastApplied
  deriving Decidable

/-- The log holds the committed entries behind its snapshot, and those handed out are the first of
them. -/
structure Exact (s : Application) : Prop where
  contiguous : s.node.log.Contiguous
  length_committed : s.committed.length = s.node.state.commitIndex
  held : ∀ i, s.node.log.snapshotIndex < i → i ≤ s.node.state.commitIndex →
    s.node.log.get i = s.committed[i - 1]?
  numbered : NumberedFrom 0 s.committed
  snapshot_le : s.node.log.snapshotIndex ≤ s.node.state.lastApplied
  applied_le : s.node.state.lastApplied ≤ s.node.state.commitIndex
  taken : s.taken = s.committed.take s.node.state.lastApplied

lemma Exact.init (config : NodeConfig) : Exact (init config) where
  contiguous := NumberedFrom.nil
  length_committed := rfl
  held := by
    intro i hi hi'
    exact absurd (Nat.lt_of_lt_of_le hi hi') (lt_irrefl 0)
  numbered := NumberedFrom.nil
  snapshot_le := le_rfl
  applied_le := le_rfl
  taken := rfl

variable {s : Application}

/-- The committed part of the log has not been lost. -/
lemma Exact.commitIndex_le (h : Exact s) {log : RaftLog} (hcontiguous : log.Contiguous)
    (hsnap : s.node.log.snapshotIndex ≤ log.snapshotIndex)
    (hget : ∀ i ≤ s.node.state.commitIndex, log.snapshotIndex < i →
      log.get i = s.node.log.get i) : s.node.state.commitIndex ≤ log.lastIndex := by
  by_cases hlt : log.snapshotIndex < s.node.state.commitIndex
  · refine hcontiguous.le_lastIndex_of_get ?_
    rw [hget _ le_rfl hlt, h.held _ (hsnap.trans_lt hlt) le_rfl, Option.isSome_iff_ne_none, ne_eq,
      List.getElem?_eq_none_iff, h.length_committed]
    lia
  · rw [hcontiguous.lastIndex_eq]
    lia

section

variable [Crc32] [ConfigJson]

/-- The invariant survives a step that moves the commit index forward within the log, the snapshot
no further than what is handed out, and hands out entries in order. -/
lemma Exact.advance (h : Exact s) {e : NodeEvent} (hkeeps : s.KeepsCommitted e)
    (hsnap : s.node.log.snapshotIndex ≤ (s.step e).node.log.snapshotIndex)
    (hcommit : s.node.state.commitIndex ≤ (s.step e).node.state.commitIndex)
    (hlast : (s.step e).node.state.commitIndex ≤ (s.step e).node.log.lastIndex)
    (hsnapshot : (s.step e).node.log.snapshotIndex ≤ (s.step e).node.state.lastApplied)
    (happlied : (s.step e).node.state.lastApplied ≤ s.node.state.commitIndex)
    (htaken : (s.step e).taken = s.committed.take (s.step e).node.state.lastApplied) :
    Exact (s.step e) := by
  obtain ⟨-, hcontiguous, hget⟩ := hkeeps
  -- what the step commits, read off the log after it
  have hsome : ∀ i, s.node.state.commitIndex < i → i ≤ s.node.state.commitIndex +
      ((s.step e).node.state.commitIndex - s.node.state.commitIndex) →
        ((s.step e).node.log.get i).isSome = true :=
    fun i hi hi' => hcontiguous.isSome_get (by lia) (by lia)
  obtain ⟨hlen, hnew⟩ := RaftNode.committedFrom_of_isSome hsome
  set new := RaftNode.committedFrom (s.step e).node.log s.node.state.commitIndex
    ((s.step e).node.state.commitIndex - s.node.state.commitIndex) with hnew_def
  have hcommitted : (s.step e).committed = s.committed ++ new := by
    simp only [step, h.length_committed, hnew_def]
  have hlength := h.length_committed
  refine ⟨hcontiguous, ?_, ?_, ?_, hsnapshot, happlied.trans hcommit, ?_⟩
  · rw [hcommitted, List.length_append, hlen]
    lia
  · intro i hi hi'
    rw [hcommitted]
    by_cases hold : i ≤ s.node.state.commitIndex
    · rw [hget i hold hi, h.held i (by lia) hold, List.getElem?_append_left (by lia)]
    · rw [List.getElem?_append_right (by lia), hnew _ (by lia)]
      congr 1
      lia
  · rw [hcommitted]
    refine h.numbered.append ?_
    intro j x hx
    have hj := (List.getElem?_eq_some_iff.mp hx).1
    rw [hnew j (by lia)] at hx
    have := hcontiguous.index_of_get hx
    lia
  · rw [htaken, hcommitted, List.take_append_of_le_length (by lia)]

omit [Crc32] [ConfigJson] in
lemma Exact.handedOut (h : Exact s) :
    s.taken ++ s.node.handedOut .takeCommittedEntries =
      s.committed.take s.node.state.commitIndex := by
  have hle := h.applied_le
  have hsnap := h.snapshot_le
  have hlen := h.length_committed
  rw [RaftNode.handedOut, RaftNode.takeCommittedEntries, h.taken,
    RaftNode.committedFrom_eq fun i hi hi' => h.held i (by lia) (by lia), ← List.take_add]
  congr 1
  lia

lemma Exact.step_take (h : Exact s) {fault : Option WalFault}
    (hkeeps : s.KeepsCommitted ⟨.takeCommittedEntries, fault⟩) :
    Exact (s.step ⟨.takeCommittedEntries, fault⟩) := by
  have happlied : (s.step ⟨.takeCommittedEntries, fault⟩).node.state.lastApplied =
      s.node.state.commitIndex := Nat.add_sub_cancel' h.applied_le
  refine h.advance hkeeps le_rfl le_rfl ?_ ?_ happlied.le ?_
  · exact h.commitIndex_le hkeeps.2.1 le_rfl hkeeps.2.2
  · rw [happlied]
    exact h.snapshot_le.trans h.applied_le
  · rw [happlied]
    exact h.handedOut

lemma Exact.step_triggerSnapshot (h : Exact s) {data : Bytes} {files : SnapshotFiles}
    {fault : Option WalFault} (hkeeps : s.KeepsCommitted ⟨.triggerSnapshot data files, fault⟩)
    (hsnapshots : s.SnapshotsApplied ⟨.triggerSnapshot data files, fault⟩) :
    Exact (s.step ⟨.triggerSnapshot data files, fault⟩) := by
  have hnode : (s.step ⟨.triggerSnapshot data files, fault⟩).node =
      (s.node.triggerSnapshot data files).1 := rfl
  obtain ⟨hstate, hle, hle'⟩ := s.node.triggerSnapshot_snapshotIndex data files
  rw [← hnode] at hstate hle hle'
  have hsnapshot : (s.step ⟨.triggerSnapshot data files, fault⟩).node.log.snapshotIndex ≤
      s.node.state.lastApplied := by
    rcases hle' with heq | ⟨hcompacts, heq⟩
    · rw [heq]
      exact h.snapshot_le
    · rw [heq]
      exact hsnapshots hcompacts
  refine h.advance hkeeps hle (by rw [hstate]) ?_ (by rwa [hstate]) ?_ ?_
  · rw [hstate]
    exact h.commitIndex_le hkeeps.2.1 hle hkeeps.2.2
  · rw [hstate]
    exact h.applied_le
  · rw [hstate]
    exact (List.append_nil _).trans h.taken

lemma Exact.step (h : Exact s) {e : NodeEvent} (hkeeps : s.KeepsCommitted e)
    (hsnapshots : s.SnapshotsApplied e) : Exact (s.step e) := by
  obtain ⟨call, fault⟩ := e
  by_cases htake : call = .takeCommittedEntries
  · subst htake
    exact h.step_take hkeeps
  by_cases hsnap : call.isSnapshot = true
  · cases call with
    | triggerSnapshot data files => exact h.step_triggerSnapshot hkeeps hsnapshots
    | installSnapshot => cases hkeeps.1
    | _ => cases hsnap
  · have hsnap : call.isSnapshot = false := by simpa using hsnap
    have hindex : (s.step ⟨call, fault⟩).node.log.snapshotIndex = s.node.log.snapshotIndex :=
      (s.node.execute_snapshot fault hsnap).1
    have happlied : (s.step ⟨call, fault⟩).node.state.lastApplied = s.node.state.lastApplied :=
      s.node.execute_lastApplied fault hsnap htake
    obtain ⟨hcommit, hlast⟩ := s.node.execute_commitIndex_le fault hsnap
      (h.commitIndex_le hkeeps.2.1 hindex.ge hkeeps.2.2) hkeeps.2.1
    refine h.advance hkeeps hindex.ge hcommit hlast ?_ ?_ ?_
    · rw [hindex, happlied]
      exact h.snapshot_le
    · rw [happlied]
      exact h.applied_le
    · rw [happlied, taken_step_of_ne htake, h.taken]

/-- **No committed entry is skipped.** Whatever calls a node sees, as long as snapshots are only
taken when everything committed has been handed out: the entries handed out are the committed ones,
each once and in order, up to the applied index. -/
theorem taken_eq_of_snapshotsApplied (config : NodeConfig) (es : List NodeEvent)
    (h : Along Application.step (fun s e => s.KeepsCommitted e ∧ s.SnapshotsApplied e)
      (Application.init config) es) :
    let s := run Application.step (Application.init config) es
    s.taken = s.committed.take s.node.state.lastApplied ∧
      s.node.state.lastApplied ≤ s.committed.length ∧
      s.committed.length = s.node.state.commitIndex ∧
      ∀ j e, s.committed[j]? = some e → e.index = j + 1 := by
  intro s
  have hexact : Exact s := run_invariant Application.step
    (fun es => Exact (run Application.step (Application.init config) es)) (Exact.init config)
    (fun es e _ hes hcond => by
      rw [run_snoc]
      exact hes.step hcond.1 hcond.2) h
  refine ⟨hexact.taken, ?_, hexact.length_committed, ?_⟩
  · rw [hexact.length_committed]
    exact hexact.applied_le
  · intro j e he
    rw [hexact.numbered j e he, Nat.zero_add]

end

section

open Runs

def firstEntry : LogEntry :=
  ⟨1, 1, [], .noop⟩

def secondEntry : LogEntry :=
  ⟨2, 1, [7], .normal⟩

/-- Node 2 accepts two entries that its leader has committed. -/
def twoCommitted : List NodeEvent :=
  [⟨.appendEntries ⟨1, 1, 0, 0, [firstEntry, secondEntry], 2⟩, none⟩]

theorem taken_eq_takeAndSnapshot :
    let s := run Application.step (Application.init ⟨2, [1, 3]⟩)
      (twoCommitted ++ [⟨.takeCommittedEntries, none⟩, ⟨.triggerSnapshot [] .written, none⟩])
    s.node.log.snapshotIndex = 2 ∧ s.taken = s.committed.take 2 := by
  have h : Along Application.step (fun s e => s.KeepsCommitted e ∧ s.SnapshotsApplied e)
      (Application.init ⟨2, [1, 3]⟩)
      (twoCommitted ++ [⟨.takeCommittedEntries, none⟩, ⟨.triggerSnapshot [] .written, none⟩]) := by
    decide +kernel
  exact ⟨by decide +kernel, (taken_eq_of_snapshotsApplied _ _ h).1⟩

/-- A snapshot before the entries are handed out: both are counted as applied, neither is handed
out. -/
theorem snapshotBeforeTake_skips :
    let es := twoCommitted ++
      [⟨.triggerSnapshot [] .written, none⟩, ⟨.takeCommittedEntries, none⟩]
    let s := run Application.step (Application.init ⟨2, [1, 3]⟩) es
    Along Application.step KeepsCommitted (Application.init ⟨2, [1, 3]⟩) es ∧
      s.committed = [firstEntry, secondEntry] ∧ s.node.state.lastApplied = 2 ∧ s.taken = [] := by
  decide +kernel

end

end Application

end Raftrust.Consensus
