import Raftrust.Consensus.LogEffect
import Raftrust.Consensus.Proposals

/-!
# Catching up

How a follower's log comes to agree with the leader's: by a snapshot, or by append requests that go
back one entry after each refusal until the follower finds the entry before them in its log.
-/

namespace Raftrust.Consensus

open Lib Storage

/-! ### Snapshots -/

/-- What a snapshot of the entries up to `i`, the last of them of term `t`, is to make of a log: the
entries after `i` stay if the log has that last entry, and otherwise none stay. -/
structure RaftLog.Installed (log : RaftLog) (i : LogIndex) (t : Term) (log' : RaftLog) : Prop where
  snapshotIndex : log'.snapshotIndex = i
  kept : (∃ e ∈ log.get i, e.term = t) → log'.entries = log.entries.filter fun e => i < e.index
  dropped : (¬ ∃ e ∈ log.get i, e.term = t) →
    log'.entries = [] ∧ log'.lastIndex = i ∧ log'.lastTerm = t

namespace NumberedFrom

variable {b : LogIndex} {e : LogEntry} {es : List LogEntry}

lemma index_le_of_mem_take (h : NumberedFrom b es) {n : ℕ} (he : e ∈ es.take n) :
    e.index ≤ b + n := by
  obtain ⟨j, hj⟩ := List.getElem?_of_mem he
  have hlt := (List.getElem?_eq_some_iff.mp hj).1
  rw [List.length_take] at hlt
  rw [List.getElem?_take_of_lt (by lia)] at hj
  have := h j e hj
  lia

lemma lt_index_of_mem_drop (h : NumberedFrom b es) {n : ℕ} (he : e ∈ es.drop n) :
    b + n < e.index := by
  obtain ⟨j, hj⟩ := List.getElem?_of_mem he
  rw [List.getElem?_drop] at hj
  have := h (n + j) e hj
  lia

/-- The entries up to an index and those after it are the two parts of the list. -/
lemma filter_split (h : NumberedFrom b es) (i : LogIndex) :
    es.filter (fun e => e.index ≤ i) = es.take (i - b) ∧
      es.filter (fun e => i < e.index) = es.drop (i - b) := by
  have htake : ∀ e ∈ es.take (i - b), e.index ≤ i := by
    intro e he
    have hle := h.index_le_of_mem_take he
    have hpos := List.length_pos_of_mem he
    rw [List.length_take] at hpos
    lia
  have hdrop : ∀ e ∈ es.drop (i - b), i < e.index := by
    intro e he
    have hlt := h.lt_index_of_mem_drop he
    lia
  constructor
  · nth_rewrite 1 [← List.take_append_drop (i - b) es]
    rw [List.filter_append, List.filter_eq_self.mpr (by simpa using htake),
      List.filter_eq_nil_iff.mpr (by simpa using hdrop), List.append_nil]
  · nth_rewrite 1 [← List.take_append_drop (i - b) es]
    rw [List.filter_append, List.filter_eq_nil_iff.mpr (by simpa using htake),
      List.filter_eq_self.mpr (by simpa using hdrop), List.nil_append]

lemma filter_gt (h : NumberedFrom b es) (i : LogIndex) :
    es.filter (fun e => i < e.index) = es.drop (i - b) :=
  (h.filter_split i).2

lemma filter_le (h : NumberedFrom b es) (i : LogIndex) :
    es.filter (fun e => e.index ≤ i) = es.take (i - b) :=
  (h.filter_split i).1

end NumberedFrom

namespace RaftNode

section

variable [Crc32]

lemma handleInstallSnapshot_log {n : RaftNode} {t : Term} {metadata : SnapshotMetadata}
    {data : Bytes} {files : SnapshotFiles} (hterm : n.term ≤ t)
    (hnew : n.log.snapshotIndex < metadata.lastIncludedIndex)
    (hsum : Crc32.hash data = metadata.checksum) (hfiles : files ≠ .writeFails) (l : NodeId) :
    (n.handleInstallSnapshot t l metadata data files).1.log =
      n.log.compact metadata.lastIncludedIndex metadata.lastIncludedTerm := by
  simp [handleInstallSnapshot, not_lt.mpr hterm, followLeader, not_le.mpr hnew, hsum, hfiles]

lemma handleInstallSnapshot_log_of_refused {n : RaftNode} {metadata : SnapshotMetadata}
    {files : SnapshotFiles}
    (h : metadata.lastIncludedIndex ≤ n.log.snapshotIndex ∨ files = .writeFails) (t : Term)
    (l : NodeId) (data : Bytes) :
    (n.handleInstallSnapshot t l metadata data files).1.log = n.log := by
  rcases Nat.lt_or_ge t n.term with hold | hterm
  · simp [handleInstallSnapshot, hold]
  by_cases hnew : metadata.lastIncludedIndex ≤ n.log.snapshotIndex
  · simp [handleInstallSnapshot, not_lt.mpr hterm, followLeader, hnew]
  · simp [handleInstallSnapshot, not_lt.mpr hterm, followLeader, hnew, h.resolve_left hnew]

/-- **Installing a snapshot leaves a consistent log** exactly if the log has the last entry of the
snapshot or ends no later than the snapshot. Otherwise entries stay that contradict it. -/
theorem handleInstallSnapshot_installed_iff {n : RaftNode} {leaderTerm : Term}
    {metadata : SnapshotMetadata} {data : Bytes} (hlog : n.log.Contiguous)
    (hterm : n.term ≤ leaderTerm) (hnew : n.log.snapshotIndex < metadata.lastIncludedIndex)
    (hsum : Crc32.hash data = metadata.checksum) (leaderId : NodeId) :
    n.log.Installed metadata.lastIncludedIndex metadata.lastIncludedTerm
        (n.handleInstallSnapshot leaderTerm leaderId metadata data .written).1.log ↔
      (∃ e ∈ n.log.get metadata.lastIncludedIndex, e.term = metadata.lastIncludedTerm) ∨
        n.log.lastIndex ≤ metadata.lastIncludedIndex := by
  rw [handleInstallSnapshot_log hterm hnew hsum (by decide), RaftLog.compact_of_lt n.log hnew]
  generalize metadata.lastIncludedIndex = i at *
  generalize metadata.lastIncludedTerm = t at *
  have hempty : n.log.entries.drop (i - n.log.snapshotIndex) = [] ↔ n.log.lastIndex ≤ i := by
    rw [List.drop_eq_nil_iff, hlog.lastIndex_eq]
    lia
  constructor
  · intro h
    by_cases hhas : ∃ e ∈ n.log.get i, e.term = t
    · exact .inl hhas
    · exact .inr (hempty.mp (h.dropped hhas).1)
  · intro h
    refine ⟨rfl, fun _ => (hlog.filter_gt i).symm, fun hnot => ?_⟩
    have hnil := hempty.mpr (h.resolve_left hnot)
    simp [RaftLog.lastIndex, RaftLog.lastTerm, hnil]

end

/-- Three entries of term 1, of which a later leader may have replaced the last two. -/
def laggingFollower : RaftNode :=
  let n := Cluster.freshNode ⟨2, [1, 3]⟩
  { n with
    state := { n.state with persistent := ⟨1, none⟩ }
    log := { n.log with
      entries := [⟨1, 1, [], .noop⟩, ⟨2, 1, [120], .normal⟩, ⟨3, 1, [121], .normal⟩] } }

/-- A snapshot of two entries whose last one is of term `t`. -/
def snapshotOf (t : Term) : SnapshotMetadata where
  lastIncludedIndex := 2
  lastIncludedTerm := t
  checksum := Crc32.ieee.hash [115]
  size := 1

theorem handleInstallSnapshot_installed_iff_sameTerm :
    letI := Crc32.ieee
    laggingFollower.log.Installed 2 1
      (laggingFollower.handleInstallSnapshot 2 1 (snapshotOf 1) [115] .written).1.log := by
  let _ := Crc32.ieee
  have hterm : laggingFollower.term ≤ 2 := by decide
  have hnew : laggingFollower.log.snapshotIndex < (snapshotOf 1).lastIncludedIndex := by decide
  exact (handleInstallSnapshot_installed_iff (by decide) hterm hnew rfl 1).mpr (.inl (by decide))

/-- The entry at 3 stays although the snapshot contradicts the one before it. -/
theorem divergentTail_kept :
    letI := Crc32.ieee
    let log := (laggingFollower.handleInstallSnapshot 2 1 (snapshotOf 2) [115] .written).1.log
    laggingFollower.log.Contiguous ∧ (laggingFollower.log.get 2).map (·.term) = some 1 ∧
      log.snapshotIndex = 2 ∧ log.snapshotTerm = 2 ∧
      log.entries = [⟨3, 1, [121], .normal⟩] ∧ log.lastIndex = 3 := by
  decide +kernel

/-! ### Append requests -/

/-- The index of the entry to send to `peer` next. -/
def nextOf (n : RaftNode) (peer : NodeId) : LogIndex :=
  (n.leaderState.bind fun l => l.nextIndex.lookup peer).getD 1

/-- A leader with a log it has added to in its term, and a follower whose log may differ from it in
any way that elections allow: where both have an entry of one term they agree up to it, and what
the follower has of the leader's term it has from the leader. -/
structure Replicating (n f : RaftNode) : Prop where
  role : n.state.role = .leader
  leading : n.leaderState.isSome = true
  peer : f.config.id ∈ n.config.peers
  contiguous : n.log.Contiguous
  uncompacted : n.log.snapshotIndex = 0
  last : ∃ e ∈ n.log.entries.getLast?, e.term = n.term
  term_le : f.term ≤ n.term
  followerUncompacted : f.log.snapshotIndex = 0
  matching : ∀ i e e', n.log.get i = some e → f.log.get i = some e' → e.term = e'.term →
    n.log.entries.take i = f.log.entries.take i
  sorted : f.log.entries.Pairwise fun e e' => e.term ≤ e'.term
  own : ∀ i e, f.log.get i = some e → e.term = n.term → n.log.get i = some e
  terms_le : ∀ e ∈ f.log.entries, e.term ≤ n.term

/-- What a leader makes of a response that is not of a later term. -/
lemma exists_handleAppendResponse_eq {n : RaftNode} {leader : LeaderState} (sender : NodeId)
    {response : AppendResponse} (hrole : n.state.role = .leader)
    (hleader : n.leaderState = some leader) (hterm : response.term ≤ n.term) :
    ∃ commitIndex, n.handleAppendResponse sender response =
      { n with
        state := { n.state with commitIndex := commitIndex }
        leaderState := some
          (if response.success then
            { nextIndex := leader.nextIndex.insert sender (response.matchIndex + 1)
              matchIndex := leader.matchIndex.insert sender response.matchIndex }
          else
            { leader with
              nextIndex := leader.nextIndex.insert sender
                (max ((leader.nextIndex.lookup sender).getD 1 - 1) 1) }) } := by
  unfold handleAppendResponse
  rw [if_neg (not_lt.mpr hterm), if_neg (not_not.mpr hrole), hleader]
  exact ⟨_, rfl⟩

section

variable [Crc32]

/-- One round in lock step: the leader makes its requests, the follower answers the one for it, and
the leader takes in the answer. -/
def exchange (s : RaftNode × RaftNode) : RaftNode × RaftNode :=
  match s.1.createAppendRequests.lookup s.2.config.id with
  | none => s
  | some request =>
    let (follower, response) := s.2.handleAppendEntries request none
    (s.1.handleAppendResponse s.2.config.id response, follower)

/-- The follower accepts the request of the next round. -/
def succeeds (s : RaftNode × RaftNode) : Bool :=
  (s.1.createAppendRequests.lookup s.2.config.id).any fun request =>
    (s.2.handleAppendEntries request none).2.success

lemma handleAppendEntries_responseTerm (n : RaftNode) (request : AppendRequest)
    (fault : Option WalFault) :
    (n.handleAppendEntries request fault).2.term =
      (n.handleAppendEntries request fault).1.term := by
  unfold handleAppendEntries
  split
  · rfl
  · dsimp only
    split <;> rfl

end

namespace Replicating

variable {n f : RaftNode} {leader : LeaderState}

lemma lookup_request (h : Replicating n f) (hleader : n.leaderState = some leader) :
    n.createAppendRequests.lookup f.config.id = some (n.appendRequestFor leader f.config.id) := by
  have hmem := h.peer
  simp only [createAppendRequests, h.role, hleader, ne_eq, not_true_eq_false, if_false]
  generalize n.config.peers = peers at hmem
  induction peers with
  | nil => cases hmem
  | cons p peers ih =>
    rw [List.map_cons, List.lookup_cons]
    rcases List.mem_cons.mp hmem with heq | hmem
    · simp [heq]
    · split
      · next heq => rw [beq_iff_eq.mp heq]
      · exact ih hmem

lemma lastIndex_eq (h : Replicating n f) : n.log.lastIndex = n.log.entries.length := by
  rw [h.contiguous.lastIndex_eq, h.uncompacted, Nat.zero_add]

/-- A follower that has all of the leader's log has nothing else: what comes after the last entry
would be of the leader's term and the leader's own. -/
lemma eq_of_isPrefix (h : Replicating n f) (hp : n.log.entries <+: f.log.entries) :
    f.log.entries = n.log.entries := by
  obtain ⟨last, hlast, hterm⟩ := h.last
  rw [Option.mem_def, List.getLast?_eq_getElem?] at hlast
  have hpos := (List.getElem?_eq_some_iff.mp hlast).1
  refine (hp.eq_of_length_le ?_).symm
  by_contra hlong
  rw [not_le] at hlong
  have hget := RaftLog.get_of_base h.followerUncompacted (i := n.log.entries.length + 1) (by lia)
  rw [Nat.add_sub_cancel, List.getElem?_eq_getElem hlong] at hget
  have hle : last.term ≤ f.log.entries[n.log.entries.length].term := by
    have hlast' := getElem?_of_isPrefix hp hlast
    obtain ⟨hi, rfl⟩ := List.getElem?_eq_some_iff.mp hlast'
    exact List.pairwise_iff_getElem.mp h.sorted _ _ hi hlong (by lia)
  have hge := h.terms_le _ (List.getElem_mem hlong)
  have hown := h.own _ _ hget (by lia)
  rw [RaftLog.get_eq_none (by rw [h.uncompacted]; lia)] at hown
  cases hown

lemma take_eq (h : Replicating n f)
    {next : LogIndex} (hnext : (leader.nextIndex.lookup f.config.id).getD 1 = next)
    (hlast : next ≤ n.log.lastIndex + 1)
    (haccepts : f.Accepts (n.appendRequestFor leader f.config.id)) :
    n.log.entries.take (next - 1) = f.log.entries.take (next - 1) ∧
      next - 1 ≤ f.log.entries.length := by
  rcases Nat.eq_zero_or_pos (next - 1) with hzero | hpos
  · simp [hzero]
  -- the check was made on the entry before those sent; equal terms mean equal logs up to there
  have hmatch : f.log.matchTerm (next - 1) ((n.log.termAt (next - 1)).getD 0) = true := by
    rw [← hnext] at hpos ⊢
    exact haccepts.2.resolve_left hpos.ne'
  have hlen := h.lastIndex_eq
  obtain ⟨e, he⟩ : ∃ e, n.log.get (next - 1) = some e :=
    Option.isSome_iff_exists.mp
      (h.contiguous.isSome_get (h.uncompacted.trans_lt hpos) (by lia))
  have hterm : (n.log.termAt (next - 1)).getD 0 = e.term := by
    simp [RaftLog.termAt, h.uncompacted, hpos.ne', he]
  rw [hterm, RaftLog.matchTerm, RaftLog.termAt, if_neg hpos.ne', h.followerUncompacted,
    if_neg hpos.ne', beq_iff_eq, Option.map_eq_some_iff] at hmatch
  obtain ⟨e', he', heq⟩ := hmatch
  refine ⟨h.matching _ e e' he he' heq.symm, ?_⟩
  rw [RaftLog.get_of_base h.followerUncompacted hpos] at he'
  have := (List.getElem?_eq_some_iff.mp he').1
  lia

variable [Crc32]

/-- Laid over a log that agrees up to there, the rest of the leader's log makes it the leader's. -/
lemma mergeEntries_eq (h : Replicating n f) {k : ℕ} (hk : k ≤ f.log.entries.length)
    (htake : n.log.entries.take k = f.log.entries.take k) :
    (mergeEntries f.log (n.log.entries.drop k) none).entries = n.log.entries := by
  have hnum : NumberedFrom k (n.log.entries.drop k) := by
    have := NumberedFrom.drop h.contiguous k
    rwa [h.uncompacted, Nat.zero_add] at this
  -- behind the point of agreement, entries of the same term are the same
  have hsame : ∀ (i : ℕ) (x e : LogEntry), (f.log.entries.drop k)[i]? = some x →
      (n.log.entries.drop k)[i]? = some e → x.term = e.term → x = e := by
    intro i x e hx he hterm
    rw [List.getElem?_drop] at hx he
    have hn := RaftLog.get_of_base h.uncompacted (i := k + i + 1) (by lia)
    have hf := RaftLog.get_of_base h.followerUncompacted (i := k + i + 1) (by lia)
    have hshared := h.matching _ e x (hn.trans he) (hf.trans hx) hterm.symm
    have hget := congrArg (fun l => l[k + i]?) hshared
    simp only [List.getElem?_take_of_lt (Nat.lt_succ_self _), hx, he] at hget
    exact (Option.some.inj hget).symm
  rcases (mergeEntries_entries f.log hnum (h.followerUncompacted.trans_le (Nat.zero_le k))
    (by rw [h.followerUncompacted]; lia) none).2 with heq | ⟨hfault, -⟩
  · rw [heq, h.followerUncompacted, Nat.sub_zero]
    rcases splice_eq hsame with ⟨hshared, hsplice⟩ | ⟨-, hsplice⟩
    · rw [hsplice, List.take_append_drop]
      refine h.eq_of_isPrefix ?_
      rw [← List.take_append_drop k n.log.entries, ← List.take_append_drop k f.log.entries, htake]
      exact (List.prefix_append_right_inj _).mpr hshared
    · rw [hsplice, ← htake, List.take_append_drop]
  · exact absurd rfl hfault

lemma exchange_eq (h : Replicating n f) (hleader : n.leaderState = some leader) :
    exchange (n, f) =
      let answer := f.handleAppendEntries (n.appendRequestFor leader f.config.id) none
      (n.handleAppendResponse f.config.id answer.2, answer.1) := by
  simp only [exchange, h.lookup_request hleader]

lemma exchange_of_accepts (h : Replicating n f) (hleader : n.leaderState = some leader)
    (hlast : n.nextOf f.config.id ≤ n.log.lastIndex + 1)
    (haccepts : f.Accepts (n.appendRequestFor leader f.config.id)) :
    succeeds (n, f) = true ∧ (exchange (n, f)).1.log = n.log ∧
      (exchange (n, f)).2.log.snapshotIndex = 0 ∧
      (exchange (n, f)).2.log.entries = n.log.entries ∧
      ∃ leader' ∈ (exchange (n, f)).1.leaderState,
        leader'.matchIndex.lookup f.config.id = some n.log.lastIndex := by
  obtain ⟨-, -, hlog, -, hresponse⟩ := f.handleAppendEntries_of_accepts none haccepts
  have hnext : (leader.nextIndex.lookup f.config.id).getD 1 = n.nextOf f.config.id := by
    simp [nextOf, hleader]
  -- the logs agree before the entries sent, so laying these over gives the leader's log
  obtain ⟨htake, hlen⟩ := h.take_eq hnext hlast haccepts
  have hrequest : (n.appendRequestFor leader f.config.id).entries =
      n.log.entries.drop (n.nextOf f.config.id - 1) := by
    rw [← RaftLog.entriesFrom_of_base h.uncompacted, ← hnext]
    rfl
  have hentries := h.mergeEntries_eq hlen htake
  rw [← hrequest] at hentries
  have hsnap := (mergeEntries_snapshot f.log
    (n.appendRequestFor leader f.config.id).entries none).1.trans h.followerUncompacted
  rw [← hlog] at hentries hsnap
  have hlastIndex : (f.handleAppendEntries (n.appendRequestFor leader f.config.id)
      none).1.log.lastIndex = n.log.lastIndex := by
    rw [RaftLog.lastIndex, hentries, hsnap, RaftLog.lastIndex, h.uncompacted]
  rw [hlastIndex] at hresponse
  have hterm : (f.handleAppendEntries (n.appendRequestFor leader f.config.id) none).2.term ≤
      n.term := by rw [hresponse]; rfl
  obtain ⟨commitIndex, hleading⟩ :=
    exists_handleAppendResponse_eq f.config.id h.role hleader hterm
  refine ⟨by simp [succeeds, h.lookup_request hleader, hresponse], ?_⟩
  rw [h.exchange_eq hleader]
  dsimp only
  rw [hleading]
  refine ⟨rfl, hsnap, hentries, _, rfl, ?_⟩
  simp [hresponse]

lemma exchange_of_not_accepts (h : Replicating n f) (hleader : n.leaderState = some leader)
    (hnot : ¬ f.Accepts (n.appendRequestFor leader f.config.id)) :
    succeeds (n, f) = false ∧ Replicating (exchange (n, f)).1 (exchange (n, f)).2 ∧
      (exchange (n, f)).1.log = n.log ∧ (exchange (n, f)).2.config = f.config ∧
      1 ≤ (exchange (n, f)).1.nextOf f.config.id ∧
      (exchange (n, f)).1.nextOf f.config.id + 1 = n.nextOf f.config.id := by
  obtain ⟨hfailed, hlog, -⟩ := f.handleAppendEntries_of_not_accepts none hnot
  -- the follower accepts whatever starts at the first entry, so there is room to go back
  have hback : 1 ≤ (leader.nextIndex.lookup f.config.id).getD 1 - 1 := by
    by_contra hzero
    exact hnot ⟨h.term_le, .inl (by
      change (leader.nextIndex.lookup f.config.id).getD 1 - 1 = 0
      lia)⟩
  have hfollower : (f.handleAppendEntries (n.appendRequestFor leader f.config.id) none).1.config =
      f.config ∧ (f.handleAppendEntries (n.appendRequestFor leader f.config.id) none).1.term =
        n.term := by
    rcases f.handleAppendEntries_cases (n.appendRequestFor leader f.config.id) none with
      ⟨hold, -⟩ | ⟨-, log, commitIndex, heq⟩
    · exact absurd hold (not_lt.mpr h.term_le)
    · rw [heq]
      exact ⟨f.observeTerm_config _, (f.observeTerm_term _).trans (max_eq_right h.term_le)⟩
  have hterm := (f.handleAppendEntries_responseTerm (n.appendRequestFor leader f.config.id)
    none).trans hfollower.2
  obtain ⟨commitIndex, hleading⟩ :=
    exists_handleAppendResponse_eq f.config.id h.role hleader hterm.le
  refine ⟨by simp [succeeds, h.lookup_request hleader, hfailed], ?_⟩
  rw [h.exchange_eq hleader]
  dsimp only
  rw [hleading]
  refine ⟨⟨h.role, rfl, ?_, h.contiguous, h.uncompacted, h.last, hfollower.2.le, ?_, ?_, ?_, ?_,
    ?_⟩, rfl, hfollower.1, ?_, ?_⟩
  · rw [hfollower.1]
    exact h.peer
  · rw [hlog]
    exact h.followerUncompacted
  · rw [hlog]
    exact h.matching
  · rw [hlog]
    exact h.sorted
  · rw [hlog]
    exact h.own
  · rw [hlog]
    exact h.terms_le
  · simp [nextOf, hfailed]
  · simp only [nextOf, hfailed, hleader, Option.bind_some, AList.lookup_insert, Option.getD_some,
      Bool.false_eq_true, if_false]
    lia

end Replicating

section

variable [Crc32]

/-- **Replication converges.** Going back by one after each refusal, the leader finds the point of
agreement in at most as many rounds as the next index it starts with says, and that round makes the
follower's log its own. -/
theorem exchange_converges {n f : RaftNode} (h : Replicating n f)
    (hpos : 1 ≤ n.nextOf f.config.id) (hlast : n.nextOf f.config.id ≤ n.log.lastIndex + 1) :
    ∃ k < n.nextOf f.config.id, (∀ j < k, succeeds (exchange^[j] (n, f)) = false) ∧
      succeeds (exchange^[k] (n, f)) = true ∧
      (exchange^[k + 1] (n, f)).1.log = n.log ∧
      (exchange^[k + 1] (n, f)).2.log.snapshotIndex = 0 ∧
      (exchange^[k + 1] (n, f)).2.log.entries = n.log.entries ∧
      ∃ leader ∈ (exchange^[k + 1] (n, f)).1.leaderState,
        leader.matchIndex.lookup f.config.id = some n.log.lastIndex := by
  obtain ⟨next, hnext⟩ : ∃ next, next = n.nextOf f.config.id := ⟨_, rfl⟩
  -- on the next index, which every refusal takes down by one
  induction next generalizing n f with
  | zero => lia
  | succ next ih =>
    obtain ⟨leader, hleader⟩ := Option.isSome_iff_exists.mp h.leading
    by_cases haccepts : f.Accepts (n.appendRequestFor leader f.config.id)
    · obtain ⟨hsucceeds, hdone⟩ := h.exchange_of_accepts hleader hlast haccepts
      exact ⟨0, hpos, by simp, hsucceeds, hdone⟩
    · obtain ⟨hfails, hrest, hlog, hconfig, hpos', hback⟩ :=
        h.exchange_of_not_accepts hleader haccepts
      rw [← hconfig] at hpos' hback
      obtain ⟨k, hk, hrefused, hdone⟩ := ih hrest hpos' (by rw [hlog]; lia) (by lia)
      rw [hlog, hconfig] at hdone
      refine ⟨k + 1, by lia, fun j hj => ?_, hdone⟩
      cases j with
      | zero => exact hfails
      | succ j => exact hrefused j (by lia)

end

/-- Node 1 leads in `term` with the given log and is to send `next` to node 2. -/
def leaderWith (term : Term) (entries : List LogEntry) (next : LogIndex) : RaftNode :=
  let n := Cluster.freshNode ⟨1, [2, 3]⟩
  { n with
    state := { n.state with role := .leader, persistent := ⟨term, some 1⟩, leaderId := some 1 }
    log := { n.log with entries := entries }
    leaderState := some
      { nextIndex := AList.insert 2 next ∅
        matchIndex := AList.insert 2 0 ∅ } }

/-- Node 2 with the given log. -/
def followerWith (term : Term) (entries : List LogEntry) : RaftNode :=
  let n := Cluster.freshNode ⟨2, [1, 3]⟩
  { n with
    state := { n.state with persistent := ⟨term, none⟩ }
    log := { n.log with entries := entries } }

def newLog : List LogEntry :=
  [⟨1, 1, [], .noop⟩, ⟨2, 2, [], .noop⟩, ⟨3, 3, [], .noop⟩]

/-- After the first entry the follower has three that were never committed. -/
def oldLog : List LogEntry :=
  [⟨1, 1, [], .noop⟩, ⟨2, 1, [120], .normal⟩, ⟨3, 1, [121], .normal⟩, ⟨4, 1, [122], .normal⟩]

theorem exchange_converges_divergent :
    letI := Crc32.ieee
    ∃ k < 4, (exchange^[k + 1] (leaderWith 3 newLog 4, followerWith 2 oldLog)).2.log.entries =
      newLog := by
  let _ := Crc32.ieee
  have hreplicating : Replicating (leaderWith 3 newLog 4) (followerWith 2 oldLog) := by
    refine ⟨rfl, rfl, by decide, by decide, rfl, ⟨_, rfl, rfl⟩, by decide, rfl, ?_, by decide, ?_,
      by decide⟩
    · intro i e e' he he' hterm
      have hnum : (leaderWith 3 newLog 4).log.Contiguous := by decide
      have hi : i ≤ 3 := hnum.le_lastIndex_of_get (by rw [he]; rfl)
      match i with
      | 0 => cases he
      | 1 => rfl
      | 2 => cases he; cases he'; cases hterm
      | 3 => cases he; cases he'; cases hterm
    · intro i e he hterm
      have hterms : ∀ x ∈ oldLog, x.term ≠ 3 := by decide
      have hmem : e ∈ oldLog := by
        unfold RaftLog.get at he
        split at he
        · cases he
        · exact List.mem_of_getElem? he
      exact absurd hterm (hterms e hmem)
  obtain ⟨k, hk, -, -, -, -, hentries, -⟩ :=
    exchange_converges hreplicating (by decide) (by decide)
  exact ⟨k, hk, hentries⟩

/-- A follower whose last entry is of a later term than its own current one keeps that entry, and a
follower that cannot write answers as if it had. -/
theorem laterEntry_survives :
    letI := Crc32.ieee
    let n := leaderWith 1 [⟨1, 1, [], .noop⟩] 2
    let f := followerWith 1 [⟨1, 1, [], .noop⟩, ⟨2, 2, [], .noop⟩]
    let s := exchange (n, f)
    n.log.Contiguous ∧ f.term ≤ n.term ∧ n.log.entries.take 1 = f.log.entries.take 1 ∧
      (f.log.entries.Pairwise fun e e' => e.term ≤ e'.term) ∧
      (∀ e ∈ f.log.entries, e.term = n.term → e ∈ n.log.entries) ∧
      succeeds (n, f) = true ∧ s.2.log.entries ≠ n.log.entries ∧ s.1.matchOf 2 = 2 ∧
      ∀ request ∈ (leaderWith 1 [⟨1, 1, [], .noop⟩] 1).createAppendRequests.lookup 2,
        let answer := (followerWith 1 []).handleAppendEntries request
          (some ⟨f.log.wal, .io "no space left on device"⟩)
        answer.2.success = true ∧ answer.1.log.entries = [] := by
  decide +kernel

end RaftNode

end Raftrust.Consensus
