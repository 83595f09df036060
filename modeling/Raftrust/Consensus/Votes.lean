import Raftrust.Consensus.Calls

/-!
# What a call does to term, vote and election

Most calls leave the saved state, the role and the election alone, or touch them only through a
term they see. `voteEffect` says for every call what is left of it when the log and the leader's
bookkeeping are forgotten.
-/

namespace Raftrust.Consensus

open Storage

/-- The nodes agree on everything elections depend on, their logs apart. -/
structure SameVotes (n m : RaftNode) : Prop where
  config : n.config = m.config
  persistent : n.state.persistent = m.state.persistent
  role : n.state.role = m.state.role
  electionState : n.electionState = m.electionState
  saves : n.saves = m.saves

namespace SameVotes

variable {n m k : RaftNode}

lemma refl (n : RaftNode) : SameVotes n n := ⟨rfl, rfl, rfl, rfl, rfl⟩

lemma trans (h : SameVotes n m) (h' : SameVotes m k) : SameVotes n k :=
  ⟨h.config.trans h'.config, h.persistent.trans h'.persistent, h.role.trans h'.role,
    h.electionState.trans h'.electionState, h.saves.trans h'.saves⟩

lemma term (h : SameVotes n m) : n.term = m.term := by
  rw [RaftNode.term, RaftNode.term, h.persistent]

end SameVotes

namespace RaftNode

variable (n : RaftNode)

/-! ### Calls -/

lemma handleAppendResponse_sameVotes (sender : NodeId) (response : AppendResponse) :
    SameVotes (n.handleAppendResponse sender response) (n.observeTerm response.term) := by
  rcases n.handleAppendResponse_cases sender response with
    ⟨hterm, heq⟩ | ⟨hterm, heq⟩ | ⟨hterm, -, leader, leader', -, -, heq⟩
  · rw [heq, observeTerm_of_lt n hterm]
    exact SameVotes.refl _
  · rw [heq, observeTerm_of_le n hterm]
    exact SameVotes.refl n
  · rw [heq, observeTerm_of_le n hterm]
    exact ⟨rfl, rfl, rfl, rfl, rfl⟩

section

variable [Crc32]

lemma handleAppendEntries_sameVotes (request : AppendRequest) (fault : Option WalFault) :
    SameVotes (n.handleAppendEntries request fault).1
      (if request.term < n.term then n
        else (n.observeTerm request.term).followLeader request.leaderId) := by
  rcases n.handleAppendEntries_cases request fault with
    ⟨hterm, heq⟩ | ⟨hterm, log, commitIndex, heq⟩
  · rw [heq, if_pos hterm]
    exact SameVotes.refl n
  · rw [heq, if_neg hterm]
    exact ⟨rfl, rfl, rfl, rfl, rfl⟩

lemma triggerSnapshot_sameVotes (data : Bytes) (files : SnapshotFiles) :
    SameVotes (n.triggerSnapshot data files).1 n := by
  rcases n.triggerSnapshot_cases data files with heq | ⟨s, t, heq⟩
  · rw [heq]
    exact SameVotes.refl n
  · rw [heq]
    exact ⟨rfl, rfl, rfl, rfl, rfl⟩

lemma handleInstallSnapshot_sameVotes (t : Term) (l : NodeId) (metadata : SnapshotMetadata)
    (data : Bytes) (files : SnapshotFiles) :
    SameVotes (n.handleInstallSnapshot t l metadata data files).1
      (if t < n.term then n else (n.observeTerm t).followLeader l) := by
  rcases n.handleInstallSnapshot_cases t l metadata data files with
    ⟨hterm, heq⟩ | ⟨hterm, log, commitIndex, lastApplied, -, heq⟩
  · rw [heq, if_pos hterm]
    exact SameVotes.refl n
  · rw [heq, if_neg hterm]
    exact ⟨rfl, rfl, rfl, rfl, rfl⟩

lemma OwnAppend.sameVotes {m n' : RaftNode} {fault : Option WalFault} (h : OwnAppend m fault n') :
    SameVotes n' m := by
  obtain ⟨log, leaderState, rfl⟩ := h.exists_eq
  exact ⟨rfl, rfl, rfl, rfl, rfl⟩

lemma execute_quiet_sameVotes [ConfigJson] (fault : Option WalFault) {call : Call}
    (h : call.isQuiet = true) : SameVotes (n.execute fault call).1 n := by
  obtain ⟨lastApplied, readIndexState, transferState, -, heq⟩ := n.execute_quiet_eq fault h
  rw [heq]
  exact ⟨rfl, rfl, rfl, rfl, rfl⟩

/-- The effect of a call on term, vote, role and election. -/
def voteEffect (fault : Option WalFault) : Call → RaftNode
  | .startPreVote => n.startPreVote.1
  | .startElection => n.startElection.1
  | .timeoutNow msg => if msg.term < n.term then n else n.startElection.1
  | .voteRequest request => (n.handleVoteRequest request).1
  | .voteResponse sender response wasPreVote =>
    (n.handleVoteResponse sender response wasPreVote fault).1
  | .appendEntries request =>
    if request.term < n.term then n
    else (n.observeTerm request.term).followLeader request.leaderId
  | .appendResponse _ response => n.observeTerm response.term
  | .installSnapshot leaderTerm leaderId _ _ _ =>
    if leaderTerm < n.term then n else (n.observeTerm leaderTerm).followLeader leaderId
  | _ => n

/-- Nothing else of a call matters to elections. -/
theorem execute_sameVotes [ConfigJson] (fault : Option WalFault) (call : Call) :
    SameVotes (n.execute fault call).1 (n.voteEffect fault call) := by
  cases call with
  | startPreVote => exact SameVotes.refl _
  | startElection => exact SameVotes.refl _
  | timeoutNow msg =>
    simp only [execute, voteEffect, handleTimeoutNow]
    split <;> exact SameVotes.refl _
  | voteRequest request => exact SameVotes.refl _
  | voteResponse sender response wasPreVote => exact SameVotes.refl _
  -- the rest works on the log, the configuration or the books of a leader
  | appendEntries request => exact n.handleAppendEntries_sameVotes request fault
  | appendResponse sender response => exact n.handleAppendResponse_sameVotes sender response
  | propose data => exact (n.propose_ownAppend data fault).sameVotes
  | triggerSnapshot data files => exact n.triggerSnapshot_sameVotes data files
  | installSnapshot t l metadata data files =>
    exact n.handleInstallSnapshot_sameVotes t l metadata data files
  | proposeConfigChange change =>
    obtain ⟨membership, h⟩ := n.proposeConfigChange_ownAppend change fault
    exact h.sameVotes.trans ⟨rfl, rfl, rfl, rfl, rfl⟩
  | applyConfigChange data =>
    obtain ⟨membership, h⟩ := n.applyConfigChange_ownAppend data fault
    exact h.sameVotes.trans ⟨rfl, rfl, rfl, rfl, rfl⟩
  | _ => exact n.execute_quiet_sameVotes fault rfl

end

end RaftNode

/-! ### Saves -/

/-- The states saved one after the other on the way from `p` to the last of them. -/
inductive SaveChain : PersistentState → List PersistentState → PersistentState → Prop where
  | nil (p : PersistentState) : SaveChain p [] p
  | cons {p q r : PersistentState} {ps : List PersistentState} (h : p.Advances q)
      (hs : SaveChain q ps r) : SaveChain p (q :: ps) r

namespace SaveChain

variable {p q r : PersistentState} {ps qs : List PersistentState}

lemma append (h : SaveChain p ps q) (h' : SaveChain q qs r) : SaveChain p (ps ++ qs) r := by
  induction h with
  | nil p => exact h'
  | cons hadv _ ih => exact .cons hadv (ih h')

lemma advances (h : SaveChain p ps q) : p.Advances q := by
  induction h with
  | nil p => exact .refl p
  | cons hadv _ ih => exact hadv.trans ih

/-- Cut off anywhere, the saves still end in a state the first one advances to. -/
lemma take (h : SaveChain p ps q) (k : ℕ) : ∃ r, SaveChain p (ps.take k) r := by
  induction h generalizing k with
  | nil p => exact ⟨p, by simpa using SaveChain.nil p⟩
  | @cons p q r ps hadv _ ih =>
    cases k with
    | zero => exact ⟨p, .nil p⟩
    | succ k =>
      obtain ⟨r', hr'⟩ := ih k
      exact ⟨r', .cons hadv hr'⟩

/-- What is read back after the saves is the last state saved. -/
lemma load_append (h : SaveChain p ps q) {saves : List PersistentState}
    (hp : PersistentState.load saves = p) : PersistentState.load (saves ++ ps) = q := by
  induction h generalizing saves with
  | nil p => simpa using hp
  | @cons p q r ps _ _ ih =>
    have := @ih (saves ++ [q]) (by simp)
    simpa using this

end SaveChain

/-- Going from `n` to `m`, every change of term and vote is saved. -/
def SavesTo (n m : RaftNode) : Prop :=
  ∃ ps, m.saves = n.saves ++ ps ∧ SaveChain n.state.persistent ps m.state.persistent

namespace SavesTo

variable {n m k : RaftNode}

lemma of_eq (hp : m.state.persistent = n.state.persistent) (hs : m.saves = n.saves) :
    SavesTo n m :=
  ⟨[], by simp [hs], hp ▸ .nil _⟩

lemma trans (h : SavesTo n m) (h' : SavesTo m k) : SavesTo n k := by
  obtain ⟨ps, hs, hp⟩ := h
  obtain ⟨qs, hs', hp'⟩ := h'
  exact ⟨ps ++ qs, by rw [hs', hs, List.append_assoc], hp.append hp'⟩

lemma of_sameVotes (h : SavesTo n k) (hm : SameVotes m k) : SavesTo n m :=
  h.trans (of_eq hm.persistent hm.saves)

lemma advances (h : SavesTo n m) : n.state.persistent.Advances m.state.persistent := by
  obtain ⟨ps, -, hp⟩ := h
  exact hp.advances

end SavesTo

namespace RaftNode

variable (n : RaftNode)

lemma savesTo_savePersistent {m : RaftNode} (hs : m.saves = n.saves)
    (h : n.state.persistent.Advances m.state.persistent) : SavesTo n m.savePersistent :=
  ⟨[m.state.persistent], by simp [savePersistent, hs], .cons h (.nil _)⟩

lemma savesTo_observeTerm (t : Term) : SavesTo n (n.observeTerm t) := by
  unfold observeTerm
  split
  · next h => exact n.savesTo_savePersistent rfl (.inl h)
  · exact .of_eq rfl rfl

lemma savesTo_startElection : SavesTo n n.startElection.1 :=
  ⟨[n.startElection.1.state.persistent], rfl, .cons (.inl (Nat.lt_succ_self n.term)) (.nil _)⟩

lemma savesTo_grantVote {c : NodeId}
    (h : ∀ c', n.state.persistent.votedFor = some c' → c' = c) : SavesTo n (n.grantVote c) := by
  refine n.savesTo_savePersistent rfl (.inr ⟨rfl, ?_⟩)
  cases hv : n.state.persistent.votedFor with
  | none => exact .inl rfl
  | some c' => exact .inr (congrArg some (h c' hv).symm)

lemma savesTo_handleVoteRequest (request : VoteRequest) :
    SavesTo n (n.handleVoteRequest request).1 := by
  rcases n.handleVoteRequest_cases request with heq | heq | ⟨hgrant, heq⟩
  · rw [heq]
    exact .of_eq rfl rfl
  · rw [heq]
    exact n.savesTo_observeTerm request.term
  · rw [heq]
    exact (n.savesTo_observeTerm request.term).trans
      (savesTo_grantVote _ (shouldGrantVote_iff.mp hgrant).2.1)

variable [Crc32]

lemma savesTo_handleVoteResponse (sender : NodeId) (response : VoteResponse) (wasPreVote : Bool)
    (fault : Option WalFault) :
    SavesTo n (n.handleVoteResponse sender response wasPreVote fault).1 := by
  rcases n.handleVoteResponse_cases sender response wasPreVote fault with
    ⟨hterm, heq⟩ | heq | ⟨election, -, -, -, heq | ⟨-, -, heq⟩⟩
  · rw [heq]
    exact n.savesTo_savePersistent rfl (.inl hterm)
  · rw [heq]
    exact .of_eq rfl rfl
  · rw [heq]
    exact .of_eq rfl rfl
  · rw [heq]
    exact .of_eq rfl rfl

lemma savesTo_voteEffect (fault : Option WalFault) (call : Call) :
    SavesTo n (n.voteEffect fault call) := by
  have follow (t : Term) (l : NodeId) :
      SavesTo n (if t < n.term then n else (n.observeTerm t).followLeader l) := by
    split
    · exact .of_eq rfl rfl
    · exact (n.savesTo_observeTerm t).trans (.of_eq rfl rfl)
  cases call with
  | startElection => exact n.savesTo_startElection
  | timeoutNow msg =>
    simp only [voteEffect]
    split
    · exact .of_eq rfl rfl
    · exact n.savesTo_startElection
  | voteRequest request => exact n.savesTo_handleVoteRequest request
  | voteResponse sender response wasPreVote =>
    exact n.savesTo_handleVoteResponse sender response wasPreVote fault
  | appendEntries request => exact follow request.term request.leaderId
  | appendResponse sender response => exact n.savesTo_observeTerm response.term
  | installSnapshot t l metadata data files => exact follow t l
  | _ => exact .of_eq rfl rfl

/-- Every call saves what it changes. -/
theorem savesTo_execute [ConfigJson] (fault : Option WalFault) (call : Call) :
    SavesTo n (n.execute fault call).1 :=
  (n.savesTo_voteEffect fault call).of_sameVotes (n.execute_sameVotes fault call)

/-! ### Vote messages -/

lemma voteRequest_of_sent [ConfigJson] {fault : Option WalFault} {call : Call} {target : NodeId}
    {request : VoteRequest} (h : Packet.voteRequest target request ∈ (n.execute fault call).2)
    (hreal : request.isPreVote = false) :
    (n.execute fault call).1 = n.startElection.1 ∧
      request = { term := n.term + 1, candidateId := n.config.id, lastLogIndex := n.log.lastIndex,
                  lastLogTerm := n.log.lastTerm, isPreVote := false } := by
  cases call with
  -- requests of a pre-vote are not real
  | startPreVote =>
    simp only [execute, startPreVote, List.map_map, List.mem_map, Function.comp_apply,
      Packet.voteRequest.injEq] at h
    obtain ⟨peer, -, -, rfl⟩ := h
    simp at hreal
  | startElection =>
    simp only [execute, startElection, List.map_map, List.mem_map, Function.comp_apply,
      Packet.voteRequest.injEq] at h
    obtain ⟨peer, -, -, rfl⟩ := h
    exact ⟨rfl, rfl⟩
  | timeoutNow msg =>
    simp only [execute, handleTimeoutNow] at h ⊢
    split at h
    · simp at h
    · next hterm =>
      simp only [startElection, List.map_map, List.mem_map, Function.comp_apply,
        Packet.voteRequest.injEq] at h
      obtain ⟨peer, -, -, rfl⟩ := h
      rw [if_neg hterm]
      exact ⟨rfl, rfl⟩
  | _ => simp [execute] at h

lemma voteResponse_of_sent [ConfigJson] {fault : Option WalFault} {call : Call}
    {target sender : NodeId} {response : VoteResponse}
    (h : Packet.voteResponse target sender response false ∈ (n.execute fault call).2) :
    ∃ request, call = .voteRequest request ∧ request.isPreVote = false ∧
      target = request.candidateId ∧ sender = n.config.id ∧
      response = (n.handleVoteRequest request).2 := by
  cases call with
  | voteRequest request =>
    simp only [execute, List.mem_singleton, Packet.voteResponse.injEq] at h
    obtain ⟨htarget, hsender, hresponse, hpre⟩ := h
    exact ⟨request, rfl, hpre.symm, htarget, hsender, hresponse⟩
  | _ => simp [execute] at h

omit [Crc32] in
lemma handleVoteRequest_granted {request : VoteRequest} (hreal : request.isPreVote = false)
    (hg : (n.handleVoteRequest request).2.voteGranted = true) :
    (n.handleVoteRequest request).2.term = request.term ∧
      (n.handleVoteRequest request).1.term = request.term ∧
      isLogUpToDate request.lastLogTerm request.lastLogIndex n.log.lastTerm n.log.lastIndex =
        true := by
  rw [handleVoteRequest, if_neg (by simp [hreal])] at hg ⊢
  dsimp only at hg ⊢
  obtain ⟨hle, -, hup⟩ := shouldGrantVote_iff.mp hg
  have hterm : (n.observeTerm request.term).term = request.term := by
    refine le_antisymm hle ?_
    rw [observeTerm_term]
    exact le_max_right _ _
  rw [if_pos hg]
  rw [observeTerm_log] at hup
  exact ⟨hterm, hterm, hup⟩

/-! ### Votes given -/

/-- The vote a call gives: to the candidate it answers, or to the node itself when it becomes a
candidate. Pre-votes do not count. -/
def givenVote (n : RaftNode) : Call → Option (Term × NodeId)
  | .startElection => some (n.startElection.1.term, n.config.id)
  | .timeoutNow msg =>
    if msg.term < n.term then none else some (n.startElection.1.term, n.config.id)
  | .voteRequest request =>
    if !request.isPreVote && (n.handleVoteRequest request).2.voteGranted then
      some ((n.handleVoteRequest request).2.term, request.candidateId)
    else none
  | _ => none

lemma givenVote_eq [ConfigJson] (fault : Option WalFault) {call : Call} {t : Term} {c : NodeId}
    (h : n.givenVote call = some (t, c)) :
    t = (n.execute fault call).1.term ∧
      (n.execute fault call).1.state.persistent.votedFor = some c := by
  cases call with
  | startElection =>
    obtain ⟨rfl, rfl⟩ : _ = t ∧ _ = c := by simpa [givenVote] using h
    exact ⟨rfl, rfl⟩
  | timeoutNow msg =>
    simp only [givenVote] at h
    split at h
    · cases h
    · next hterm =>
      obtain ⟨rfl, rfl⟩ : _ = t ∧ _ = c := by simpa using h
      rw [execute, handleTimeoutNow, if_neg hterm]
      exact ⟨rfl, rfl⟩
  -- a pre-vote gives nothing; a real vote is saved before it is answered
  | voteRequest request =>
    simp only [givenVote] at h
    split at h
    · next hgrant =>
      obtain ⟨rfl, rfl⟩ : _ = t ∧ _ = c := by simpa using h
      simp only [Bool.and_eq_true, Bool.not_eq_true'] at hgrant
      obtain ⟨hpre, hgrant⟩ := hgrant
      simp only [execute]
      rw [handleVoteRequest, if_neg (by simp [hpre])] at hgrant ⊢
      dsimp only at hgrant ⊢
      rw [if_pos hgrant]
      exact ⟨rfl, rfl⟩
    · cases h
  | _ => cases h

lemma givenVote_of_sent [ConfigJson] {fault : Option WalFault} {call : Call}
    {target sender : NodeId} {response : VoteResponse}
    (h : Packet.voteResponse target sender response false ∈ (n.execute fault call).2)
    (hg : response.voteGranted = true) :
    sender = n.config.id ∧ n.givenVote call = some (response.term, target) := by
  obtain ⟨request, rfl, hreal, rfl, rfl, rfl⟩ := n.voteResponse_of_sent h
  simp [givenVote, hreal, hg]

end RaftNode

/-! ### Roles -/

namespace RaftNode

/-- What a call can do to the role of a node. -/
inductive RoleEffect (n : RaftNode) (call : Call) (n' : RaftNode) : Prop where
  | kept (role : n'.state.role = n.state.role) (term : n'.term = n.term)
      (electionState : n'.electionState = n.electionState)
  | follower (role : n'.state.role = .follower)
  | preCandidate (role : n'.state.role = .preCandidate) (term : n'.term = n.term)
  | candidate (role : n'.state.role = .candidate) (term : n'.term = n.term + 1)
      (votedFor : n'.state.persistent.votedFor = some n.config.id)
      (electionState : n'.electionState =
        some ((ElectionState.new n.clusterSize).recordVote n.config.id).1)
  | counted (sender : NodeId) (response : VoteResponse) (wasPreVote : Bool)
      (election : ElectionState) (hcall : call = .voteResponse sender response wasPreVote)
      (hterm : response.term ≤ n.term) (granted : response.voteGranted = true)
      (helection : n.electionState = some election)
      (role : n'.state.role = n.state.role) (term : n'.term = n.term)
      (electionState : n'.electionState = some (election.recordVote sender).1)
  | elected (sender : NodeId) (response : VoteResponse) (election : ElectionState)
      (hcall : call = .voteResponse sender response false)
      (hterm : response.term ≤ n.term) (granted : response.voteGranted = true)
      (helection : n.electionState = some election)
      (quorum : (election.recordVote sender).2 = true)
      (role : n'.state.role = .leader) (term : n'.term = n.term)

namespace RoleEffect

variable {n n' m : RaftNode} {call : Call}

lemma of_sameVotes (h : RoleEffect n call n') (hm : SameVotes m n') : RoleEffect n call m := by
  cases h with
  | kept hr ht he =>
    exact .kept (hm.role.trans hr) (hm.term.trans ht) (hm.electionState.trans he)
  | follower hr => exact .follower (hm.role.trans hr)
  | preCandidate hr ht => exact .preCandidate (hm.role.trans hr) (hm.term.trans ht)
  | candidate hr ht hv he =>
    refine .candidate (hm.role.trans hr) (hm.term.trans ht) ?_ (hm.electionState.trans he)
    rw [hm.persistent, hv]
  | counted sender response wasPreVote election hcall hterm granted helection hr ht he =>
    exact .counted sender response wasPreVote election hcall hterm granted helection
      (hm.role.trans hr) (hm.term.trans ht) (hm.electionState.trans he)
  | elected sender response election hcall hterm granted helection quorum hr ht =>
    exact .elected sender response election hcall hterm granted helection quorum
      (hm.role.trans hr) (hm.term.trans ht)

lemma refl (n : RaftNode) (call : Call) : RoleEffect n call n := .kept rfl rfl rfl

lemma startElection (n : RaftNode) (call : Call) : RoleEffect n call n.startElection.1 :=
  .candidate rfl rfl rfl rfl

lemma observeTerm (n : RaftNode) (call : Call) (t : Term) :
    RoleEffect n call (n.observeTerm t) := by
  unfold RaftNode.observeTerm
  split
  · exact .follower rfl
  · exact refl n call

lemma handleVoteRequest (n : RaftNode) (call : Call) (request : VoteRequest) :
    RoleEffect n call (n.handleVoteRequest request).1 := by
  rcases n.handleVoteRequest_cases request with heq | heq | ⟨-, heq⟩
  · rw [heq]
    exact refl n call
  · rw [heq]
    exact observeTerm n call request.term
  · rw [heq]
    by_cases hterm : n.term < request.term
    · rw [observeTerm_of_lt n hterm]
      exact .follower rfl
    · rw [observeTerm_of_le n (not_lt.mp hterm)]
      exact .kept rfl rfl rfl

lemma followLeader (n : RaftNode) (call : Call) (t : Term) (l : NodeId) :
    RoleEffect n call (if t < n.term then n else (n.observeTerm t).followLeader l) := by
  split
  · exact refl n call
  · exact .follower rfl

/-- A leader led the same term before, or the vote it was handed has just made it leader. -/
lemma leader_cases (h : RoleEffect n call n') (hlead : n'.state.role = .leader) :
    n'.term = n.term ∧ (n.state.role = .leader ∨ ∃ sender response election,
      call = .voteResponse sender response false ∧ response.term ≤ n.term ∧
        response.voteGranted = true ∧ n.electionState = some election ∧
        (election.recordVote sender).2 = true) := by
  cases h with
  | kept hr ht => exact ⟨ht, .inl (hr.symm.trans hlead)⟩
  | follower hr => simp [hr] at hlead
  | preCandidate hr => simp [hr] at hlead
  | candidate hr => simp [hr] at hlead
  | counted _ _ _ _ _ _ _ _ hr ht => exact ⟨ht, .inl (hr.symm.trans hlead)⟩
  | elected sender response election hcall hterm granted helection quorum _ ht =>
    exact ⟨ht, .inr ⟨sender, response, election, hcall, hterm, granted, helection, quorum⟩⟩

variable [Crc32]

lemma handleVoteResponse (n : RaftNode) (sender : NodeId) (response : VoteResponse)
    (wasPreVote : Bool) (fault : Option WalFault) :
    RoleEffect n (.voteResponse sender response wasPreVote)
      (n.handleVoteResponse sender response wasPreVote fault).1 := by
  rcases n.handleVoteResponse_cases sender response wasPreVote fault with
    ⟨-, heq⟩ | heq | ⟨election, hterm, granted, helection, heq | ⟨rfl, quorum, heq⟩⟩
  · rw [heq]
    exact .follower rfl
  · rw [heq]
    exact refl n _
  · rw [heq]
    exact .counted sender response wasPreVote election rfl hterm granted helection rfl rfl rfl
  · rw [heq]
    exact .elected sender response election rfl hterm granted helection quorum rfl rfl

end RoleEffect

variable [Crc32] [ConfigJson]

/-- Every call has one of these effects on the role. -/
theorem execute_roleEffect (n : RaftNode) (fault : Option WalFault) (call : Call) :
    RoleEffect n call (n.execute fault call).1 := by
  apply RoleEffect.of_sameVotes ?_ (n.execute_sameVotes fault call)
  cases call with
  | startPreVote => exact .preCandidate rfl rfl
  | startElection => exact RoleEffect.startElection n _
  | timeoutNow msg =>
    simp only [voteEffect]
    split
    · exact RoleEffect.refl n _
    · exact RoleEffect.startElection n _
  | voteRequest request => exact RoleEffect.handleVoteRequest n _ request
  | voteResponse sender response wasPreVote =>
    exact RoleEffect.handleVoteResponse n sender response wasPreVote fault
  | appendEntries request => exact RoleEffect.followLeader n _ request.term request.leaderId
  | appendResponse sender response => exact RoleEffect.observeTerm n _ response.term
  | installSnapshot t l metadata data files => exact RoleEffect.followLeader n _ t l
  | _ => exact RoleEffect.refl n _

lemma execute_config (n : RaftNode) (fault : Option WalFault) (call : Call) :
    (n.execute fault call).1.config = n.config := by
  cases n.execute_outcome fault call with
  | kept heq => rw [heq]
  | preVote heq => rw [heq]; rfl
  | election heq => rw [heq]; rfl
  | observed t _ heq => rw [heq, observeTerm_config]
  | granted request _ heq => rw [heq]; exact n.observeTerm_config request.term
  | counted _ _ _ _ _ _ heq => rw [heq]
  | elected _ _ heq => rw [heq]; rfl
  | followed request _ _ _ heq => rw [heq]; exact n.observeTerm_config request.term
  | acknowledged _ _ _ _ _ _ _ _ _ heq => rw [heq]; rfl
  | proposed happend => exact happend.sameVotes.config
  | reconfigured _ _ happend => exact happend.sameVotes.config
  | compacted _ _ _ heq => rw [heq]
  | installed t _ _ _ _ _ _ _ _ heq => rw [heq]; exact n.observeTerm_config t
  | quiet hquiet => exact (n.execute_quiet_sameVotes fault hquiet).config

end RaftNode

/-! ### Along a run -/

namespace Cluster

open Lib

variable [Crc32] [ConfigJson]

/-- Nobody's configuration ever changes. -/
lemma run_config (T : Topology) (es : List Event) (n : NodeId) :
    ((after T es).nodes n).config = { id := n, peers := T.peers n } := by
  induction es using List.reverseRecOn with
  | nil => rfl
  | append_singleton es e ih =>
    rw [after_snoc]
    rcases step_cases T (after T es) e with ⟨-, heq⟩ | ⟨-, heq⟩
    · rw [heq, ih]
    · rw [heq]
      rcases eq_or_ne n e.node with rfl | hn
      · rw [put_nodes_self, RaftNode.execute_config, ih]
      · rw [put_nodes_of_ne _ hn, ih]

/-- A leader leads a term after the initial one, and votes are asked for and given in such terms. -/
structure PositiveTerms (c : Cluster) : Prop where
  leader : ∀ n, (c.nodes n).state.role = .leader → 1 ≤ (c.nodes n).term
  voteRequest : ∀ target request, Packet.voteRequest target request ∈ c.network →
    request.isPreVote = false → 1 ≤ request.term
  voteResponse : ∀ target sender response,
    Packet.voteResponse target sender response false ∈ c.network →
      response.voteGranted = true → 1 ≤ response.term

lemma PositiveTerms.execute {c : Cluster} (h : PositiveTerms c) {k : NodeId} {call : Call}
    (hpacket : ∀ p ∈ call.packet k, p ∈ c.network) (fault : Option WalFault) :
    PositiveTerms
      (c.put k ((c.nodes k).execute fault call).1 ((c.nodes k).execute fault call).2) where
  leader := by
    intro m hlead
    rcases eq_or_ne m k with rfl | hm
    swap
    · rw [put_nodes_of_ne c hm] at hlead ⊢
      exact h.leader m hlead
    rw [put_nodes_self] at hlead ⊢
    obtain ⟨hterm, hold | ⟨sender, response, -, rfl, hle, hg, -⟩⟩ :=
      ((c.nodes m).execute_roleEffect fault call).leader_cases hlead
    · rw [hterm]
      exact h.leader m hold
    · rw [hterm]
      exact (h.voteResponse m sender response (hpacket _ rfl) hg).trans hle
  voteRequest := by
    intro target request hmem hreal
    rcases mem_network_put.mp hmem with hmem | hmem
    · exact h.voteRequest target request hmem hreal
    · obtain ⟨-, rfl⟩ := RaftNode.voteRequest_of_sent _ hmem hreal
      exact Nat.succ_pos _
  voteResponse := by
    intro target sender response hmem hg
    rcases mem_network_put.mp hmem with hmem | hmem
    · exact h.voteResponse target sender response hmem hg
    · obtain ⟨request, rfl, hreal, rfl, rfl, rfl⟩ := RaftNode.voteResponse_of_sent _ hmem
      rw [(RaftNode.handleVoteRequest_granted _ hreal hg).1]
      exact h.voteRequest k request (hpacket _ rfl) hreal

lemma positiveTerms (T : Topology) (es : List Event) :
    PositiveTerms (after T es) := by
  refine run_invariant (step T) (fun es => PositiveTerms (after T es)) ?_ ?_
    (along_true (step T) (init T) es)
  · constructor
    · simp [init, freshNode]
    · simp [init]
    · simp [init]
  · intro es e _ h _
    rw [after_snoc]
    rcases step_cases T (after T es) e with ⟨-, heq⟩ | ⟨⟨-, hpacket⟩, heq⟩
    · rwa [heq]
    · rw [heq]
      exact h.execute hpacket e.fault

end Cluster

end Raftrust.Consensus
