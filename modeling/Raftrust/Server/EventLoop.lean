import Raftrust.Consensus.Applied
import Raftrust.Mvcc.Faults
import Raftrust.Server.Apply

/-!
# The event loop

One task of a server sweeps leases, takes committed entries from the consensus node and applies
them. Other tasks call the node and read the store at any time, so the loop is a state machine that
goes on by one call at a time. Taking entries counts them as applied before the first of them is;
an error in the middle of a batch drops the rest of it.
-/

namespace Raftrust.Server

open Lib Consensus Mvcc Storage

/-- Where the loop stands: waiting, proposing to delete the keys of leases that have expired, in a
batch before its next entry, or inside of a command that has made its first call. -/
inductive LoopState where
  | idle
  | expiring (keys : List Bytes)
  | applying (rest : List LogEntry)
  | putting (entry : LogEntry) (key value : Bytes) (leaseId ttlSeconds : Int64)
      (rest : List LogEntry)
  | deleting (entry : LogEntry) (key : Bytes) (prev : Option KeyValue) (rest : List LogEntry)
  | revoking (entry : LogEntry) (m : Moment) (keys : List Bytes) (rest : List LogEntry)
  /-- The task has panicked. -/
  | stopped (rest : List LogEntry)

/-- The entries of the batch that have not been applied yet. -/
def LoopState.pending : LoopState → List LogEntry
  | idle => []
  | expiring _ => []
  | applying rest => rest
  | putting entry _ _ _ _ rest => entry :: rest
  | deleting entry _ _ rest => entry :: rest
  | revoking entry _ _ rest => entry :: rest
  | stopped rest => rest

/-- A server, with what its replica has been through so far: the entries whose application is
complete and the sweeps. -/
structure ServerState (σ : Type) where
  app : Application
  replica : Replica σ
  loop : LoopState
  trace : List ReplicaEvent

/-- Another task calls the node, or the loop makes its next call. -/
inductive ServerEvent where
  | call (e : NodeEvent)
  | sweep (now : ℕ) (ids : IterationOrder Int64) (order : IterationOrder Bytes)
  | take
  | advance (fault : Option EngineFault) (walFault : Option WalFault) (m : Moment)

namespace ServerState

section

variable {σ : Type}

def init (config : NodeConfig) (replica : Replica σ) : ServerState σ where
  app := .init config
  replica := replica
  loop := .idle
  trace := []

/-- The entry has been applied and the loop goes on with the rest of the batch. -/
def finish (s : ServerState σ) (replica : Replica σ) (entry : LogEntry) (m : Moment)
    (rest : List LogEntry) : ServerState σ :=
  { s with
    replica := replica
    loop := .applying rest
    trace := s.trace ++ [.apply entry m] }

/-- A store call has failed. An error ends the batch, a panic ends the task. -/
def fail (s : ServerState σ) (store : MvccStore σ) (entry : LogEntry) (rest : List LogEntry) :
    Abort → ServerState σ
  | .error _ => { s with replica := { s.replica with store := store }, loop := .idle }
  | .panicked =>
    { s with replica := { s.replica with store := store }, loop := .stopped (entry :: rest) }

variable [StorageEngine σ]

/-- The first call of a command. Granting a lease is done at once. -/
def beginCommand (s : ServerState σ) (fault : Option EngineFault) (m : Moment) (entry : LogEntry)
    (rest : List LogEntry) : KvCommand → ServerState σ
  | .put key value leaseId ttlSeconds =>
    match s.replica.store.tryGet fault key with
    | .ok _ => { s with loop := .putting entry key value leaseId ttlSeconds rest }
    | .error abort => s.fail s.replica.store entry rest abort
  | .delete key =>
    match s.replica.store.tryGet fault key with
    | .ok prev => { s with loop := .deleting entry key prev rest }
    | .error abort => s.fail s.replica.store entry rest abort
  | .leaseGrant leaseId ttl =>
    match s.replica.leases.grant leaseId ttl m.now with
    | .ok (_, _, leases) => s.finish { s.replica with leases := leases } entry m rest
    | .error _ => s.finish s.replica entry m rest
  | .leaseRevoke leaseId =>
    match s.replica.leases.revoke leaseId m.order with
    | .ok (keys, leases) =>
      { s with
        replica := { s.replica with leases := leases }
        loop := .revoking entry m keys rest }
    | .error _ => s.finish s.replica entry m rest

variable [Crc32] [ConfigJson] [CommandJson]

/-- The next entry of the batch. -/
def beginEntry (s : ServerState σ) (fault : Option EngineFault) (walFault : Option WalFault)
    (m : Moment) (entry : LogEntry) (rest : List LogEntry) : ServerState σ :=
  match entry.entryType with
  | .normal =>
    if entry.data.isEmpty then s.finish s.replica entry m rest
    else
      match KvCommand.decode entry.data with
      | .ok cmd => s.beginCommand fault m entry rest cmd
      | .error _ => s.finish s.replica entry m rest
  | .noop => s.finish s.replica entry m rest
  | .configChange =>
    finish { s with app := s.app.step ⟨.applyConfigChange entry.data, walFault⟩ } s.replica entry m
      rest

/-- The next call of the loop. -/
def advance (s : ServerState σ) (fault : Option EngineFault) (walFault : Option WalFault)
    (m : Moment) : ServerState σ :=
  match s.loop with
  | .idle => s
  | .expiring [] => { s with loop := .idle }
  | .expiring (key :: keys) =>
    { s with
      app := s.app.step ⟨.propose (KvCommand.delete key).encode, walFault⟩
      loop := .expiring keys }
  | .applying [] => { s with loop := .idle }
  | .applying (entry :: rest) => s.beginEntry fault walFault m entry rest
  | .putting entry key value leaseId ttlSeconds rest =>
    match s.replica.store.tryPut fault key value leaseId ttlSeconds with
    | (store, .ok _) =>
      s.finish { store := store, leases := Replica.attach s.replica.leases leaseId key } entry m
        rest
    | (store, .error abort) => s.fail store entry rest abort
  | .deleting entry key prev rest =>
    match s.replica.store.tryDelete fault key with
    | (store, .ok _) =>
      s.finish { store := store, leases := Replica.detach s.replica.leases prev key } entry m rest
    | (store, .error abort) => s.fail store entry rest abort
  | .revoking entry m [] rest => s.finish s.replica entry m rest
  | .revoking entry m (key :: keys) rest =>
    match s.replica.store.tryDelete fault key with
    | (store, .error .panicked) => s.fail store entry rest .panicked
    | (store, _) =>
      { s with
        replica := { s.replica with store := store }
        loop := .revoking entry m keys rest }
  | .stopped _ => s

/-- Only the loop takes entries, and it sweeps and takes when it is waiting. -/
def step (s : ServerState σ) : ServerEvent → ServerState σ
  | .call e => if e.call = .takeCommittedEntries then s else { s with app := s.app.step e }
  | .sweep now ids order =>
    match s.loop with
    | .idle =>
      let (expired, leases) := s.replica.leases.collectExpired now ids order
      { s with
        replica := { s.replica with leases := leases }
        loop := .expiring (expired.flatMap (·.2))
        trace := s.trace ++ [.sweep now ids order] }
    | _ => s
  | .take =>
    match s.loop with
    | .idle =>
      { s with
        app := s.app.step ⟨.takeCommittedEntries, none⟩
        loop := .applying (s.app.node.handedOut .takeCommittedEntries) }
    | _ => s
  | .advance fault walFault m => s.advance fault walFault m

end

/-! ### Conditions on runs -/

section

variable {σ : Type} [Crc32] [ConfigJson] [CommandJson]

/-- The call that an event makes to the consensus node. -/
def nodeEvent? (s : ServerState σ) : ServerEvent → Option NodeEvent
  | .call e => if e.call = .takeCommittedEntries then none else some e
  | .sweep _ _ _ => none
  | .take =>
    match s.loop with
    | .idle => some ⟨.takeCommittedEntries, none⟩
    | _ => none
  | .advance _ walFault _ =>
    match s.loop with
    | .expiring (key :: _) => some ⟨.propose (KvCommand.delete key).encode, walFault⟩
    | .applying (entry :: _) =>
      if entry.entryType = .configChange then some ⟨.applyConfigChange entry.data, walFault⟩
      else none
    | _ => none

/-- Committed entries stay in the log until they are taken. -/
def KeepsEntries (s : ServerState σ) (e : ServerEvent) : Prop :=
  ∀ ev ∈ s.nodeEvent? e, s.app.KeepsCommitted ev ∧ s.app.SnapshotsApplied ev
  deriving Decidable

end

section

variable {σ : Type}

/-- No call of the engine fails. -/
def CallsSucceed (_ : ServerState σ) : ServerEvent → Prop
  | .advance fault _ _ => fault = none
  | _ => True

instance (s : ServerState σ) (e : ServerEvent) : Decidable (s.CallsSucceed e) := by
  cases e <;> unfold CallsSucceed <;> infer_instance

variable [StorageEngine σ] [CommandJson]

/-- Every command that is committed up to the applied index has been applied once, in order, and the
replica is what these commands make of the initial one, with the sweeps there were. -/
def EffectsApplied (initial : Replica σ) (s : ServerState σ) : Prop :=
  (s.trace.filterMap ReplicaEvent.entry?).filter (fun entry => (command? entry).isSome) =
      (s.app.committed.take s.app.node.state.lastApplied).filter
        (fun entry => (command? entry).isSome) ∧
    initial.run s.trace = .ok s.replica

/-! ### The invariant -/

/-- How the replica compares with `r`, which has been through all that is complete. -/
def Matches (r replica : Replica σ) : LoopState → Prop
  | .putting entry key value leaseId ttlSeconds _ =>
    r = replica ∧ command? entry = some (.put key value leaseId ttlSeconds) ∧
      ∃ prev, replica.store.get key = .ok prev
  | .deleting entry key prev _ =>
    r = replica ∧ command? entry = some (.delete key) ∧ replica.store.get key = .ok prev
  | .revoking entry m keys _ =>
    ∃ id done, command? entry = some (.leaseRevoke id) ∧
      r.leases.revoke id m.order = .ok (done ++ keys, replica.leases) ∧
      Replica.deleteAll r.store done = .ok replica.store
  | .stopped rest => ∃ entry ∈ rest, command? entry ≠ none
  | _ => r = replica

/-- With no command pending the replica has been through nothing else. -/
lemma eq_of_matches {r replica : Replica σ} {loop : LoopState} (h : Matches r replica loop)
    (hpending : ∀ entry ∈ loop.pending, command? entry = none) : r = replica := by
  cases loop with
  | stopped rest =>
    obtain ⟨entry, hmem, hcmd⟩ := h
    exact absurd (hpending entry hmem) hcmd
  | revoking entry m keys rest =>
    obtain ⟨id, done, hcmd, -⟩ := h
    rw [hpending entry List.mem_cons_self] at hcmd
    cases hcmd
  | putting => exact h.1
  | deleting => exact h.1
  | _ => exact h

structure InSync (initial : Replica σ) (s : ServerState σ) : Prop where
  exact : s.app.Exact
  taken : s.app.taken = s.trace.filterMap ReplicaEvent.entry? ++ s.loop.pending
  replayed : ∃ r, initial.run s.trace = .ok r ∧ Matches r s.replica s.loop

namespace InSync

variable {initial : Replica σ} {s : ServerState σ}

lemma of_loop_eq (h : s.InSync initial) {loop : LoopState} (hloop : s.loop = loop) :
    s.app.taken = s.trace.filterMap ReplicaEvent.entry? ++ loop.pending ∧
      ∃ r, initial.run s.trace = .ok r ∧ Matches r s.replica loop :=
  hloop ▸ ⟨h.taken, h.replayed⟩

/-- The effects are there exactly if no command of the batch is left. -/
lemma effectsApplied_iff (h : s.InSync initial) :
    s.EffectsApplied initial ↔ ∀ entry ∈ s.loop.pending, command? entry = none := by
  have hlists : (s.trace.filterMap ReplicaEvent.entry?).filter
        (fun entry => (command? entry).isSome) =
      (s.app.committed.take s.app.node.state.lastApplied).filter
        (fun entry => (command? entry).isSome) ↔
      ∀ entry ∈ s.loop.pending, command? entry = none := by
    rw [← h.exact.taken, h.taken, List.filter_append, List.self_eq_append_right,
      List.filter_eq_nil_iff]
    simp
  rw [EffectsApplied, hlists, and_iff_left_iff_imp]
  intro hpending
  obtain ⟨r, hrun, hmatches⟩ := h.replayed
  rw [hrun, eq_of_matches hmatches hpending]

lemma run_finish {r replica : Replica σ} {entry : LogEntry} {m : Moment}
    (hrun : initial.run s.trace = .ok r) (hstep : r.step (.apply entry m) = .ok replica) :
    initial.run (s.trace ++ [.apply entry m]) = .ok replica := by
  rw [Replica.run_snoc, hrun]
  exact hstep

/-- The first entry that is pending has been applied. -/
lemma finish {app : Application} {r replica : Replica σ} {entry : LogEntry} {m : Moment}
    {rest : List LogEntry} (hexact : app.Exact)
    (htaken : app.taken = s.trace.filterMap ReplicaEvent.entry? ++ entry :: rest)
    (hrun : initial.run s.trace = .ok r) (hstep : r.step (.apply entry m) = .ok replica) :
    InSync initial (ServerState.finish { s with app := app } replica entry m rest) where
  exact := hexact
  taken := by simp [ServerState.finish, htaken, ReplicaEvent.entry?, LoopState.pending]
  replayed := ⟨replica, run_finish hrun hstep, rfl⟩

/-- A call that panics stops the loop with its command pending. -/
lemma fail {store : MvccStore σ} {entry : LogEntry} {rest : List LogEntry} {r : Replica σ}
    {abort : Abort} (hexact : s.app.Exact)
    (htaken : s.app.taken = s.trace.filterMap ReplicaEvent.entry? ++ entry :: rest)
    (hrun : initial.run s.trace = .ok r) (hcmd : command? entry ≠ none)
    (habort : ∀ e, abort ≠ .error e) :
    InSync initial (s.fail store entry rest abort) := by
  cases abort with
  | error e => exact absurd rfl (habort e)
  | panicked =>
    exact ⟨hexact, htaken, r, hrun, entry, List.mem_cons_self, hcmd⟩

lemma beginCommand {entry : LogEntry} {rest : List LogEntry} {cmd : KvCommand} {m : Moment}
    (h : s.InSync initial) (hloop : s.loop = .applying (entry :: rest))
    (hcmd : command? entry = some cmd) :
    InSync initial (s.beginCommand none m entry rest cmd) := by
  obtain ⟨htaken, r, hrun, hmatches⟩ := h.of_loop_eq hloop
  obtain rfl : r = s.replica := hmatches
  have hne : command? entry ≠ none := by simp [hcmd]
  have hstep : s.replica.step (.apply entry m) = s.replica.applyCommand m cmd := by
    rw [Replica.step_apply, hcmd]
  cases cmd with
  | put key value leaseId ttlSeconds =>
    simp only [ServerState.beginCommand, MvccStore.tryGet_none]
    cases hget : s.replica.store.get key with
    | ok prev => exact ⟨h.exact, htaken, s.replica, hrun, rfl, hcmd, prev, hget⟩
    | error abort =>
      refine fail h.exact htaken hrun hne fun e he => ?_
      exact s.replica.store.reportsNone_get key e (by rw [hget, he])
  | delete key =>
    simp only [ServerState.beginCommand, MvccStore.tryGet_none]
    cases hget : s.replica.store.get key with
    | ok prev => exact ⟨h.exact, htaken, s.replica, hrun, rfl, hcmd, hget⟩
    | error abort =>
      refine fail h.exact htaken hrun hne fun e he => ?_
      exact s.replica.store.reportsNone_get key e (by rw [hget, he])
  | leaseGrant leaseId ttl =>
    rw [Replica.applyCommand] at hstep
    simp only [ServerState.beginCommand]
    cases hgrant : s.replica.leases.grant leaseId ttl m.now with
    | ok result =>
      rw [hgrant] at hstep
      exact finish h.exact htaken hrun hstep
    | error e =>
      rw [hgrant] at hstep
      exact finish h.exact htaken hrun hstep
  | leaseRevoke leaseId =>
    rw [Replica.applyCommand] at hstep
    simp only [ServerState.beginCommand]
    cases hrevoke : s.replica.leases.revoke leaseId m.order with
    | ok result => exact ⟨h.exact, htaken, s.replica, hrun, leaseId, [], hcmd, hrevoke, rfl⟩
    | error e =>
      rw [hrevoke] at hstep
      exact finish h.exact htaken hrun hstep

variable [Crc32] [ConfigJson]

lemma beginEntry {entry : LogEntry} {rest : List LogEntry} {walFault : Option WalFault}
    {m : Moment} (h : s.InSync initial) (hloop : s.loop = .applying (entry :: rest))
    (hconfig : entry.entryType = .configChange →
      (s.app.step ⟨.applyConfigChange entry.data, walFault⟩).Exact) :
    InSync initial (s.beginEntry none walFault m entry rest) := by
  obtain ⟨htaken, r, hrun, hmatches⟩ := h.of_loop_eq hloop
  obtain rfl : r = s.replica := hmatches
  have hskip : command? entry = none → s.replica.step (.apply entry m) = .ok s.replica := by
    intro hnone
    rw [Replica.step_apply, hnone]
  rw [ServerState.beginEntry]
  cases htype : entry.entryType with
  | noop => exact finish h.exact htaken hrun (hskip (by simp [command?, htype]))
  | configChange =>
    refine finish (hconfig htype) ?_ hrun (hskip (by simp [command?, htype]))
    exact (Application.taken_step_of_ne (by simp)).trans htaken
  | normal =>
    by_cases hdata : entry.data = []
    · simp only [hdata, List.isEmpty_nil, if_true]
      exact finish h.exact htaken hrun (hskip (by simp [command?, hdata]))
    · simp only [List.isEmpty_iff, hdata, if_false]
      cases hdecode : KvCommand.decode entry.data with
      | ok cmd => exact h.beginCommand hloop (command?_eq_some htype hdata hdecode)
      | error e =>
        refine finish h.exact htaken hrun (hskip ?_)
        simp [command?, hdecode, Except.toOption]

lemma put {entry : LogEntry} {key value : Bytes} {leaseId ttlSeconds : Int64}
    {rest : List LogEntry} {walFault : Option WalFault} {m : Moment} (h : s.InSync initial)
    (hloop : s.loop = .putting entry key value leaseId ttlSeconds rest) :
    InSync initial (s.advance none walFault m) := by
  obtain ⟨htaken, r, hrun, hmatches⟩ := h.of_loop_eq hloop
  obtain ⟨rfl, hcmd, prev, hget⟩ := hmatches
  have hput := s.replica.store.putWithOptions_eq_tryPut key value leaseId ttlSeconds
  have hnone := s.replica.store.reportsNone_tryPut key value leaseId ttlSeconds
  simp only [advance, hloop]
  rcases htry : s.replica.store.tryPut none key value leaseId ttlSeconds with ⟨store, result⟩
  rw [htry] at hput hnone
  cases result with
  | ok revision =>
    refine finish h.exact htaken hrun ?_
    simp only [Replica.step_apply, hcmd, Replica.applyCommand, hget, hput]
    rfl
  | error abort =>
    exact fail h.exact htaken hrun (by simp [hcmd]) fun e he => hnone e (by rw [he])

lemma delete {entry : LogEntry} {key : Bytes} {prev : Option KeyValue} {rest : List LogEntry}
    {walFault : Option WalFault} {m : Moment} (h : s.InSync initial)
    (hloop : s.loop = .deleting entry key prev rest) :
    InSync initial (s.advance none walFault m) := by
  obtain ⟨htaken, r, hrun, hmatches⟩ := h.of_loop_eq hloop
  obtain ⟨rfl, hcmd, hget⟩ := hmatches
  have hdelete := s.replica.store.delete_eq_tryDelete key
  have hnone := s.replica.store.reportsNone_tryDelete key
  simp only [advance, hloop]
  rcases htry : s.replica.store.tryDelete none key with ⟨store, result⟩
  rw [htry] at hdelete hnone
  cases result with
  | ok result =>
    refine finish h.exact htaken hrun ?_
    simp only [Replica.step_apply, hcmd, Replica.applyCommand, hget, hdelete]
    rfl
  | error abort =>
    exact fail h.exact htaken hrun (by simp [hcmd]) fun e he => hnone e (by rw [he])

/-- The next key of a revoked lease is deleted, or the last one was. -/
lemma revoke {entry : LogEntry} {m' : Moment} {keys : List Bytes} {rest : List LogEntry}
    {walFault : Option WalFault} {m : Moment} (h : s.InSync initial)
    (hloop : s.loop = .revoking entry m' keys rest) :
    InSync initial (s.advance none walFault m) := by
  obtain ⟨htaken, r, hrun, hmatches⟩ := h.of_loop_eq hloop
  obtain ⟨id, done, hcmd, hrevoke, hdone⟩ := hmatches
  cases keys with
  | nil =>
    simp only [advance, hloop]
    refine finish h.exact htaken hrun ?_
    rw [List.append_nil] at hrevoke
    simp only [Replica.step_apply, hcmd, Replica.applyCommand, hrevoke, hdone]
    rfl
  | cons key keys =>
    have hdelete := s.replica.store.delete_eq_tryDelete key
    have hnone := s.replica.store.reportsNone_tryDelete key
    simp only [advance, hloop]
    rcases htry : s.replica.store.tryDelete none key with ⟨store, result⟩
    rw [htry] at hdelete hnone
    cases result with
    | ok result =>
      refine ⟨h.exact, htaken, r, hrun, id, done ++ [key], hcmd, ?_, ?_⟩
      · simpa using hrevoke
      · refine Replica.deleteAll_snoc hdone ?_
        rw [Replica.deleteKey, hdelete]
        rfl
    | error abort =>
      cases abort with
      | error e => exact absurd rfl (hnone e)
      | panicked => exact fail h.exact htaken hrun (by simp [hcmd]) (by simp)

lemma advance {walFault : Option WalFault} {m : Moment} (h : s.InSync initial)
    (hkeeps : s.KeepsEntries (.advance none walFault m)) :
    InSync initial (s.advance none walFault m) := by
  cases hloop : s.loop with
  | idle => simpa [ServerState.advance, hloop] using h
  | stopped rest => simpa [ServerState.advance, hloop] using h
  | putting => exact h.put hloop
  | deleting => exact h.delete hloop
  | revoking => exact h.revoke hloop
  | expiring keys =>
    obtain ⟨htaken, r, hrun, hmatches⟩ := h.of_loop_eq hloop
    cases keys with
    | nil =>
      simp only [ServerState.advance, hloop]
      exact ⟨h.exact, htaken, r, hrun, hmatches⟩
    | cons key keys =>
      obtain ⟨hk, hs⟩ := hkeeps ⟨.propose (KvCommand.delete key).encode, walFault⟩
        (by simp [nodeEvent?, hloop])
      simp only [ServerState.advance, hloop]
      exact ⟨h.exact.step hk hs, (Application.taken_step_of_ne (by simp)).trans htaken, r, hrun,
        hmatches⟩
  | applying rest =>
    cases rest with
    | nil =>
      obtain ⟨htaken, r, hrun, hmatches⟩ := h.of_loop_eq hloop
      simp only [ServerState.advance, hloop]
      exact ⟨h.exact, htaken, r, hrun, hmatches⟩
    | cons entry rest =>
      simp only [ServerState.advance, hloop]
      refine h.beginEntry hloop fun htype => ?_
      obtain ⟨hk, hs⟩ := hkeeps ⟨.applyConfigChange entry.data, walFault⟩
        (by simp [nodeEvent?, hloop, htype])
      exact h.exact.step hk hs

lemma step {e : ServerEvent} (h : s.InSync initial) (hkeeps : s.KeepsEntries e)
    (hsucceed : s.CallsSucceed e) : InSync initial (s.step e) := by
  cases e with
  | call e =>
    rw [ServerState.step]
    split_ifs with htake
    · exact h
    · obtain ⟨hk, hs⟩ := hkeeps e (by simp [nodeEvent?, htake])
      exact ⟨h.exact.step hk hs, (Application.taken_step_of_ne htake).trans h.taken, h.replayed⟩
  | sweep now ids order =>
    rw [ServerState.step]
    split
    · next hloop =>
      obtain ⟨htaken, r, hrun, hmatches⟩ := h.of_loop_eq hloop
      obtain rfl : r = s.replica := hmatches
      refine ⟨h.exact, ?_, _, ?_, rfl⟩
      · rw [List.filterMap_append, List.filterMap_cons_none rfl, List.filterMap_nil,
          List.append_nil]
        exact htaken
      · rw [Replica.run_snoc, hrun]
        rfl
    · exact h
  | take =>
    rw [ServerState.step]
    split
    · next hloop =>
      obtain ⟨htaken, r, hrun, hmatches⟩ := h.of_loop_eq hloop
      obtain ⟨hk, hs⟩ := hkeeps ⟨.takeCommittedEntries, none⟩ (by simp [nodeEvent?, hloop])
      refine ⟨h.exact.step hk hs, ?_, r, hrun, hmatches⟩
      simp only [LoopState.pending, List.append_nil] at htaken ⊢
      rw [← htaken]
      rfl
    · exact h
  | advance fault walFault m =>
    obtain rfl : fault = none := hsucceed
    exact h.advance hkeeps

end InSync

variable [Crc32] [ConfigJson]

/-- **What is counted as applied.** In every run in which no call of the engine fails, at every
point: every committed command up to the applied index has had its effect, once and in order, if
and only if the loop has no command left of the batch it has taken. -/
theorem effectsApplied_iff_no_command_pending (config : NodeConfig) (initial : Replica σ)
    (es : List ServerEvent)
    (h : Along ServerState.step (fun s e => s.KeepsEntries e ∧ s.CallsSucceed e)
      (ServerState.init config initial) es) :
    let s := run ServerState.step (ServerState.init config initial) es
    s.EffectsApplied initial ↔ ∀ entry ∈ s.loop.pending, command? entry = none := by
  intro s
  have hsync : s.InSync initial := run_invariant ServerState.step
    (fun es => InSync initial (run ServerState.step (ServerState.init config initial) es))
    ⟨.init config, rfl, initial, rfl, rfl⟩
    (fun es e _ hes he => by
      rw [run_snoc]
      exact hes.step he.1 he.2) h
  exact hsync.effectsApplied_iff

end

end ServerState

/-! ### Runs -/

namespace LoopRuns

open Runs

def putA : KvCommand := .put [97] [49] 0 0

def putB : KvCommand := .put [98] [50] 0 0

scoped instance : CommandJson := .text [putA, putB]

/-- Node 2 accepts two commands that its leader has committed, and the loop takes them. -/
def takeTwo : List ServerEvent :=
  [.call ⟨.appendEntries ⟨1, 1, 0, 0,
      [⟨1, 1, putA.encode, .normal⟩, ⟨2, 1, putB.encode, .normal⟩], 2⟩, none⟩, .take]

def moment : Moment where
  now := 0
  order := .ascending Bytes

def next (fault : Option EngineFault) : ServerEvent :=
  .advance fault none moment

def fresh : ServerState (Std.TreeMap Bytes Bytes) :=
  .init ⟨2, [1, 3]⟩ { store := .new ∅, leases := .new }

end LoopRuns

section

open Runs LoopRuns

theorem ServerState.effectsApplied_takeTwo :
    ServerState.EffectsApplied { store := .new ∅, leases := .new }
      (run ServerState.step fresh
        (takeTwo ++ [next none, next none, next none, next none])) := by
  have h : Along ServerState.step (fun s e => s.KeepsEntries e ∧ s.CallsSucceed e) fresh
      (takeTwo ++ [next none, next none, next none, next none]) := by
    decide +kernel
  exact (ServerState.effectsApplied_iff_no_command_pending _ _ _ h).mpr (by decide +kernel)

/-- After the entries are taken, and before the first is applied, both count as applied and neither
is in the store. When the first put fails, the second entry of the batch is never applied. -/
theorem ServerState.takeTwo_runs_ahead :
    let taken := run ServerState.step fresh takeTwo
    let failed := run ServerState.step fresh
      (takeTwo ++ [next none, next (some (.put (.io "No space left on device") false)), .take,
        next none, next none])
    taken.app.node.state.lastApplied = 2 ∧
      taken.replica.store.get [97] = .ok none ∧
      ¬ taken.EffectsApplied { store := .new ∅, leases := .new } ∧
      failed.loop.pending = [] ∧ failed.app.node.state.lastApplied = 2 ∧
      failed.replica.store.get [98] = .ok none ∧
      ¬ failed.EffectsApplied { store := .new ∅, leases := .new } := by
  refine ⟨by decide +kernel, by decide +kernel, fun h => ?_, by decide +kernel, by decide +kernel,
    by decide +kernel, fun h => ?_⟩
  · have := h.1
    revert this
    decide +kernel
  · have := h.1
    revert this
    decide +kernel

end

end Raftrust.Server
