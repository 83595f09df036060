import Raftrust.Consensus.Votes

/-!
# Votes across restarts

A host runs one node over its files. It may crash between calls, or inside a call after any number
of the saves the call makes; what a crash leaves of the log file is arbitrary. Every call saves
each change of term and vote before it answers, so the saved state never falls behind a vote that
was given.
-/

namespace Raftrust.Consensus

open Lib Storage

/-! ### Hosts -/

/-- A node's files, the node while it is up, and the votes it has given so far, each with its
term. -/
structure Host where
  node : Option RaftNode
  saves : List PersistentState
  wal : Bytes
  grants : List (Term × NodeId)

inductive HostEvent where
  | call (call : Call) (fault : Option WalFault)
  | crash (wal : Bytes)
  | crashDuring (call : Call) (fault : Option WalFault) (made : ℕ) (wal : Bytes)
  | restart

namespace Host

/-- Nothing on disk, nothing running. -/
def init : Host where
  node := none
  saves := []
  wal := []
  grants := []

/-- What the host holds of term and vote: in the node while it is up, on disk otherwise. -/
def persistent (h : Host) : PersistentState :=
  match h.node with
  | some n => n.state.persistent
  | none => PersistentState.load h.saves

def currentTerm (h : Host) : Term :=
  h.persistent.currentTerm

lemma persistent_some {h : Host} {n : RaftNode} (hn : h.node = some n) :
    h.persistent = n.state.persistent := by
  simp [persistent, hn]

/-- The node and the state file agree, and so do they with every vote given. -/
structure Faithful (h : Host) : Prop where
  node_saves : ∀ n, h.node = some n → n.saves = h.saves
  load_saves : PersistentState.load h.saves = h.persistent
  grant_le : ∀ t c, (t, c) ∈ h.grants → t ≤ h.currentTerm
  grant_vote : ∀ t c, (t, c) ∈ h.grants → t = h.currentTerm → h.persistent.votedFor = some c
  grant_unique : ∀ t c c', (t, c) ∈ h.grants → (t, c') ∈ h.grants → c = c'

lemma Faithful.init : Faithful Host.init where
  node_saves := by simp [Host.init]
  load_saves := rfl
  grant_le := by simp [Host.init]
  grant_vote := by simp [Host.init]
  grant_unique := by simp [Host.init]

lemma Faithful.advance {h h' : Host} (hf : Faithful h) (hg : h'.grants = h.grants)
    (hn : ∀ n, h'.node = some n → n.saves = h'.saves)
    (hl : PersistentState.load h'.saves = h'.persistent)
    (hadv : h.persistent.Advances h'.persistent) : Faithful h' where
  node_saves := hn
  load_saves := hl
  grant_le := by
    intro t c htc
    rw [hg] at htc
    exact (hf.grant_le t c htc).trans hadv.term_le
  grant_vote := by
    intro t c htc ht
    rw [hg] at htc
    have hle := hf.grant_le t c htc
    have heq : t = h.currentTerm := le_antisymm hle (ht ▸ hadv.term_le)
    exact hadv.votedFor (heq.symm.trans ht) (hf.grant_vote t c htc heq)
  grant_unique := by
    rw [hg]
    exact hf.grant_unique

/-- A vote that the host still holds may be added to those given. -/
lemma Faithful.grant {h : Host} (hf : Faithful h) {t : Term} {c : NodeId}
    (ht : t = h.currentTerm) (hc : h.persistent.votedFor = some c) :
    Faithful { h with grants := h.grants ++ [(t, c)] } where
  node_saves := hf.node_saves
  load_saves := hf.load_saves
  grant_le := by
    intro t' c' hmem
    rcases List.mem_append.mp hmem with hmem | hmem
    · exact hf.grant_le t' c' hmem
    · obtain ⟨rfl, rfl⟩ : t' = t ∧ c' = c := by simpa using hmem
      exact ht.le
  grant_vote := by
    intro t' c' hmem ht'
    rcases List.mem_append.mp hmem with hmem | hmem
    · exact hf.grant_vote t' c' hmem ht'
    · obtain ⟨rfl, rfl⟩ : t' = t ∧ c' = c := by simpa using hmem
      exact hc
  grant_unique := by
    -- an earlier vote of the current term is the one the host holds
    have hold : ∀ c', (t, c') ∈ h.grants → c' = c := by
      intro c' hmem
      have := hf.grant_vote t c' hmem ht
      rw [hc] at this
      exact (Option.some.inj this).symm
    intro t' c₁ c₂ h₁ h₂
    simp only [List.mem_append, List.mem_singleton, Prod.mk.injEq] at h₁ h₂
    rcases h₁ with h₁ | ⟨rfl, rfl⟩
    · rcases h₂ with h₂ | ⟨rfl, rfl⟩
      · exact hf.grant_unique t' c₁ c₂ h₁ h₂
      · exact hold c₁ h₁
    · rcases h₂ with h₂ | ⟨-, rfl⟩
      · exact (hold c₂ h₂).symm
      · rfl

variable [Crc32] [ConfigJson]

def step (config : NodeConfig) (h : Host) : HostEvent → Host
  | .call call fault =>
    match h.node with
    | none => h
    | some n =>
      let executed := (n.execute fault call).1
      { h with
        node := some executed
        saves := executed.saves
        grants := h.grants ++ (n.givenVote call).toList }
  | .crash wal => { h with node := none, wal := wal }
  | .crashDuring call fault made wal =>
    match h.node with
    | none => h
    | some n =>
      { h with
        node := none
        saves := (n.execute fault call).1.saves.take (n.saves.length + made)
        wal := wal }
  | .restart =>
    match RaftNode.new config h.saves h.wal with
    | .ok n => { h with node := some n }
    | .error _ => { h with node := none }

omit [ConfigJson] in
/-- A node starts with what the state file says. -/
lemma new_eq {config : NodeConfig} {saves : List PersistentState} {wal : Bytes} {n : RaftNode}
    (h : RaftNode.new config saves wal = .ok n) :
    n.state.persistent = PersistentState.load saves ∧ n.saves = saves := by
  unfold RaftNode.new at h
  cases hlog : RaftLog.openFile wal with
  | error a => simp [hlog, bind, Except.bind] at h
  | ok log =>
    simp only [hlog, bind, Except.bind, pure, Except.pure, Except.ok.injEq] at h
    subst h
    exact ⟨rfl, rfl⟩

/-- A call saves what it changes, and a vote it gives is the one it has saved. -/
lemma Faithful.call {h : Host} (hf : Faithful h) (config : NodeConfig) {n : RaftNode}
    (hn : h.node = some n) (call : Call) (fault : Option WalFault) :
    Faithful (h.step config (.call call fault)) ∧
      h.persistent.Advances (h.step config (.call call fault)).persistent := by
  obtain ⟨ps, hs, hp⟩ := n.savesTo_execute fault call
  have hload : PersistentState.load h.saves = n.state.persistent :=
    hf.load_saves.trans (persistent_some hn)
  -- the state after the call, without the vote
  let h' : Host :=
    { h with node := some (n.execute fault call).1, saves := (n.execute fault call).1.saves }
  have hadv : h.persistent.Advances h'.persistent := by
    rw [persistent_some hn]
    exact hp.advances
  have hf' : Faithful h' := by
    refine hf.advance rfl (by simp [h']) ?_ hadv
    simp only [h', hs, hf.node_saves n hn]
    exact hp.load_append hload
  simp only [Host.step, hn]
  refine ⟨?_, hadv⟩
  cases hg : n.givenVote call with
  | none => simpa [hg] using hf'
  | some tc =>
    obtain ⟨ht, hc⟩ := n.givenVote_eq fault (t := tc.1) (c := tc.2) hg
    exact hf'.grant ht hc

lemma Faithful.crashDuring {h : Host} (hf : Faithful h) (config : NodeConfig) {n : RaftNode}
    (hn : h.node = some n) (call : Call) (fault : Option WalFault) (made : ℕ) (wal : Bytes) :
    Faithful (h.step config (.crashDuring call fault made wal)) ∧
      h.persistent.Advances (h.step config (.crashDuring call fault made wal)).persistent := by
  obtain ⟨ps, hs, hp⟩ := n.savesTo_execute fault call
  have hload : PersistentState.load h.saves = n.state.persistent :=
    hf.load_saves.trans (persistent_some hn)
  obtain ⟨r, hr⟩ := hp.take made
  have hcut : (n.execute fault call).1.saves.take (n.saves.length + made) =
      h.saves ++ ps.take made := by
    rw [hs, List.take_length_add_append, hf.node_saves n hn]
  have hr' : (h.step config (.crashDuring call fault made wal)).persistent = r := by
    simp only [Host.step, hn, persistent, hcut]
    exact hr.load_append hload
  have hadv : h.persistent.Advances r := by
    rw [persistent_some hn]
    exact hr.advances
  refine ⟨hf.advance ?_ ?_ ?_ (hr' ▸ hadv), hr' ▸ hadv⟩
  · simp [Host.step, hn]
  · simp [Host.step, hn]
  · simp [Host.step, hn, persistent]

lemma Faithful.restart {h : Host} (hf : Faithful h) (config : NodeConfig) :
    Faithful (h.step config .restart) ∧
      h.persistent.Advances (h.step config .restart).persistent := by
  -- the state comes from the save file, whether or not the log can be read
  have hp : (h.step config .restart).persistent = h.persistent := by
    rw [← hf.load_saves]
    simp only [Host.step]
    cases hnew : RaftNode.new config h.saves h.wal with
    | error a => rfl
    | ok n => exact (new_eq hnew).1
  have hadv : h.persistent.Advances (h.step config .restart).persistent := by
    rw [hp]
    exact .refl _
  refine ⟨hf.advance ?_ ?_ ?_ hadv, hadv⟩
  · simp only [Host.step]
    split <;> rfl
  · simp only [Host.step]
    split
    · next n hnew =>
      rintro m hm
      obtain rfl : n = m := by simpa using hm
      exact (new_eq hnew).2
    · simp
  · rw [hp, ← hf.load_saves]
    simp only [Host.step]
    split <;> rfl

/-- One event: the host stays faithful, and its term and vote advance. -/
lemma Faithful.step {h : Host} (hf : Faithful h) (config : NodeConfig) (e : HostEvent) :
    Faithful (h.step config e) ∧ h.persistent.Advances (h.step config e).persistent := by
  cases e with
  | call call fault =>
    cases hn : h.node with
    | none => simpa [Host.step, hn] using ⟨hf, PersistentState.Advances.refl _⟩
    | some n => exact hf.call config hn call fault
  | crash wal =>
    have hp : (h.step config (.crash wal)).persistent = h.persistent := hf.load_saves
    have hadv : h.persistent.Advances (h.step config (.crash wal)).persistent := by
      rw [hp]
      exact .refl _
    exact ⟨hf.advance rfl (by simp [Host.step]) rfl hadv, hadv⟩
  | crashDuring call fault made wal =>
    cases hn : h.node with
    | none => simpa [Host.step, hn] using ⟨hf, PersistentState.Advances.refl _⟩
    | some n => exact hf.crashDuring config hn call fault made wal
  | restart => exact hf.restart config

/-- However calls, crashes and restarts follow on one another, the term never decreases, and all
votes given in one term are for the same candidate. -/
theorem currentTerm_mono_and_grants_unique (config : NodeConfig) (es es' : List HostEvent) :
    (run (step config) init es).currentTerm ≤ (run (step config) init (es ++ es')).currentTerm ∧
      ∀ t c c', (t, c) ∈ (run (step config) init es).grants →
        (t, c') ∈ (run (step config) init es).grants → c = c' := by
  have hf (es : List HostEvent) : Faithful (run (step config) init es) :=
    run_invariant (step config) (fun es => Faithful (run (step config) init es)) Faithful.init
      (fun es e _ hes _ => by simpa using (hes.step config e).1)
      (along_true (step config) init es)
  refine ⟨?_, (hf es).grant_unique⟩
  rw [run_append]
  -- the term goes up event by event, from the state reached by `es`
  have hadv : ∀ (h : Host), Faithful h →
      h.persistent.Advances (run (step config) h es').persistent := by
    induction es' with
    | nil => exact fun h _ => .refl _
    | cons e es' ih =>
      intro h hh
      exact (hh.step config e).2.trans (ih _ (hh.step config e).1)
  exact (hadv _ (hf es)).term_le

end Host

end Raftrust.Consensus
