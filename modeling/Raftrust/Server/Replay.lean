import Raftrust.Mvcc.Readable
import Raftrust.Mvcc.Replay
import Raftrust.Server.Attachment

/-!
# Replay after a restart

A server that starts again has a commit index of zero, so that the whole log is applied a second
time, to a store with revision zero over the engine as it was.
-/

namespace Raftrust.Server

open Lib Mvcc Storage

/-- The command that makes the call. -/
def KvCommand.ofOp : MvccStore.Op → KvCommand
  | .put key value leaseId ttlSeconds => .put key value leaseId ttlSeconds
  | .delete key => .delete key

namespace Replica

variable {σ : Type} [StorageEngine σ]

/-- What is left of a replica when its server starts again. -/
def restart (r : Replica σ) : Replica σ where
  store := .new r.store.engine
  leases := .new

lemma applyCommand_ofOp {r : Replica σ} (h : r.store.Readable) (m : Moment) (op : MvccStore.Op)
    [hkey : MvccStore.ScansKey σ op.key] {store : MvccStore σ}
    (hexec : r.store.execute op = .ok store) :
    ∃ leases, r.applyCommand m (.ofOp op) = .ok ⟨store, leases⟩ := by
  cases op with
  | put key value leaseId ttlSeconds =>
    have : MvccStore.ScansKey σ key := hkey
    obtain ⟨prev, hprev⟩ := h.exists_get key
    obtain ⟨createRevision, hput⟩ := h.exists_putWithOptions key value leaseId ttlSeconds
    rw [MvccStore.execute, hput] at hexec
    obtain rfl := Except.ok.inj hexec
    exact ⟨_, by rw [KvCommand.ofOp, applyCommand, hprev, hput]; rfl⟩
  | delete key =>
    have : MvccStore.ScansKey σ key := hkey
    obtain ⟨prev, hprev⟩ := h.exists_get key
    obtain ⟨existed, hdelete⟩ := h.exists_delete key
    rw [MvccStore.execute, hdelete] at hexec
    obtain rfl := Except.ok.inj hexec
    exact ⟨_, by rw [KvCommand.ofOp, applyCommand, hprev, hdelete]; rfl⟩

lemma applyAll_ofOp {r : Replica σ} (h : r.store.Readable) {ops : List MvccStore.Op}
    (hkeys : ∀ op ∈ ops, MvccStore.ScansKey σ op.key) {cmds : List (KvCommand × Moment)}
    (hcmds : cmds.map Prod.fst = ops.map KvCommand.ofOp) {store : MvccStore σ}
    (hrun : ops.foldlM MvccStore.execute r.store = .ok store) :
    ∃ leases, r.applyAll cmds = .ok ⟨store, leases⟩ := by
  induction ops generalizing r cmds with
  | nil =>
    obtain rfl := List.map_eq_nil_iff.mp hcmds
    obtain rfl := Except.ok.inj hrun
    exact ⟨r.leases, rfl⟩
  | cons op ops ih =>
    obtain ⟨⟨cmd, m⟩, rest, rfl, rfl, hrest⟩ := List.map_eq_cons_iff.mp hcmds
    rw [List.foldlM_cons, bind_eq_ok_iff] at hrun
    obtain ⟨store', hexec, hrun⟩ := hrun
    have := hkeys op List.mem_cons_self
    obtain ⟨leases, happly⟩ := applyCommand_ofOp h m op hexec
    rw [applyAll, List.foldlM_cons, happly]
    exact ih (r := ⟨store', leases⟩) (h.execute hexec)
      (fun op hop => hkeys op (List.mem_cons_of_mem _ hop)) hrest hrun

/-- **Replay after a restart.** Put and delete commands are applied to an empty store, and after a
restart all of them once more, and none of their keys has an inverted range. The revision is then
what it was, and reads of every such key at every revision return what they returned exactly if the
commands are safe to replay. -/
theorem replay_reads_iff {ops : List MvccStore.Op} {cmds cmds' : List (KvCommand × Moment)}
    (hcmds : cmds.map Prod.fst = ops.map KvCommand.ofOp)
    (hcmds' : cmds'.map Prod.fst = ops.map KvCommand.ofOp)
    (hkeys : ∀ op ∈ ops, MvccStore.HasRange op.key) (hfits : ∀ op ∈ ops, op.Fits)
    (hlen : ops.length < 2 ^ 64) :
    ∃ r r', (new σ).applyAll cmds = .ok r ∧ r.restart.applyAll cmds' = .ok r' ∧
      r'.store.currentRevision = r.store.currentRevision ∧
      ((∀ key revision, MvccStore.HasRange key → r'.store.getAtRevision key revision =
        r.store.getAtRevision key revision) ↔ MvccStore.ReplaySafe ops) := by
  have hscans : ∀ op ∈ ops, MvccStore.ScansKey σ op.key := fun op hop => (hkeys op hop).scansKey
  obtain ⟨s, s', hrun, hreplay, hrevision, hrevision', hreads⟩ :=
    MvccStore.exists_replay_reads σ hscans hfits hlen
  obtain ⟨leases, hfirst⟩ := applyAll_ofOp (r := new σ) MvccStore.readable_new hscans hcmds hrun
  have hreadable : s.Readable :=
    foldlM_invariant (fun _ _ _ h hexec => h.execute hexec) MvccStore.readable_new hrun
  obtain ⟨leases', hsecond⟩ :=
    applyAll_ofOp (r := restart ⟨s, leases⟩) (hreadable.of_engine_eq rfl) hscans hcmds' hreplay
  exact ⟨_, _, hfirst, hsecond, hrevision'.trans hrevision.symm, hreads⟩

end Replica

/-! ### Runs -/

namespace ReplayRuns

open MvccStore

def commands (ops : List Op) : List (KvCommand × Moment) :=
  ops.map fun op => (.ofOp op, { now := 0, order := .ascending Bytes })

/-- Key `a` is put twice, and key `b` is put and deleted. -/
def safe : List Op :=
  [.put [97] [49] 0 0, .put [98] [50] 0 0, .put [97] [51] 0 0, .delete [98]]

/-- Key `a` is put, deleted and put again. -/
def recreated : List Op :=
  [.put [97] [49] 0 0, .delete [97], .put [97] [50] 0 0]

/-- Key `a` is put twice and deleted. -/
def deleted : List Op :=
  [.put [97] [49] 0 0, .put [97] [50] 0 0, .delete [97]]

/-- A read after the commands, and after they have been replayed. -/
def readTwice (ops : List Op) (key : Bytes) (revision : ℕ) :
    Except Abort (Option KeyValue × Option KeyValue) := do
  let r ← (Replica.new (Std.TreeMap Bytes Bytes)).applyAll (commands ops)
  let r' ← r.restart.applyAll (commands ops)
  return (← r.store.getAtRevision key revision, ← r'.store.getAtRevision key revision)

lemma getAtRevision_ne_of_readTwice {ops : List Op} {key : Bytes} {revision : ℕ}
    {kv kv' : Option KeyValue} (h : readTwice ops key revision = .ok (kv, kv')) (hne : kv' ≠ kv) :
    ∃ r r' : Replica (Std.TreeMap Bytes Bytes),
      (Replica.new _).applyAll (commands ops) = .ok r ∧
      r.restart.applyAll (commands ops) = .ok r' ∧
      r'.store.getAtRevision key revision ≠ r.store.getAtRevision key revision := by
  obtain ⟨r, hr, h⟩ := bind_eq_ok_iff.mp h
  obtain ⟨r', hr', h⟩ := bind_eq_ok_iff.mp h
  obtain ⟨a, ha, h⟩ := bind_eq_ok_iff.mp h
  obtain ⟨b, hb, h⟩ := bind_eq_ok_iff.mp h
  obtain ⟨rfl, rfl⟩ := Prod.mk.inj (Except.ok.inj h)
  refine ⟨r, r', hr, hr', fun heq => hne ?_⟩
  exact Except.ok.inj (hb.symm.trans (heq.trans ha))

end ReplayRuns

open ReplayRuns in
theorem Replica.replay_reads_safe :
    ∃ r r' : Replica (Std.TreeMap Bytes Bytes),
      (Replica.new _).applyAll (commands safe) = .ok r ∧
      r.restart.applyAll (commands safe) = .ok r' ∧
      ∀ key revision, MvccStore.HasRange key → r'.store.getAtRevision key revision =
        r.store.getAtRevision key revision := by
  have hsafe : MvccStore.ReplaySafe safe := .of_forall_lt (by decide +kernel)
  have hcmds : (commands safe).map Prod.fst = safe.map KvCommand.ofOp := rfl
  obtain ⟨r, r', hfirst, hsecond, -, hreads⟩ :=
    Replica.replay_reads_iff (σ := Std.TreeMap Bytes Bytes) hcmds hcmds
      (by decide) (by simp [safe, MvccStore.Op.Fits]) (by decide)
  exact ⟨r, r', hfirst, hsecond, hreads.mpr hsafe⟩

open ReplayRuns in
/-- A put of a key that has been deleted and put again takes over the create revision of the later
put. If the key has been deleted last, every put of it starts anew. -/
theorem Replica.replay_changes_reads :
    readTwice recreated [97] 1 = .ok (some ⟨[97], [49], 1, 1, 0⟩, some ⟨[97], [49], 3, 1, 0⟩) ∧
      readTwice deleted [97] 2 = .ok (some ⟨[97], [50], 1, 2, 0⟩, some ⟨[97], [50], 2, 2, 0⟩) ∧
      ∀ ops ∈ [recreated, deleted],
        ∃ r r' : Replica (Std.TreeMap Bytes Bytes),
          (Replica.new _).applyAll (commands ops) = .ok r ∧
          r.restart.applyAll (commands ops) = .ok r' ∧
          ¬ ∀ key revision, r'.store.getAtRevision key revision =
            r.store.getAtRevision key revision := by
  have hrecreated : readTwice recreated [97] 1 =
      .ok (some ⟨[97], [49], 1, 1, 0⟩, some ⟨[97], [49], 3, 1, 0⟩) := by
    decide +kernel
  have hdeleted : readTwice deleted [97] 2 =
      .ok (some ⟨[97], [50], 1, 2, 0⟩, some ⟨[97], [50], 2, 2, 0⟩) := by
    decide +kernel
  refine ⟨hrecreated, hdeleted, fun ops hops => ?_⟩
  simp only [List.mem_cons, List.not_mem_nil, or_false] at hops
  rcases hops with rfl | rfl
  · obtain ⟨r, r', hr, hr', hne⟩ := getAtRevision_ne_of_readTwice hrecreated (by decide)
    exact ⟨r, r', hr, hr', fun h => hne (h _ _)⟩
  · obtain ⟨r, r', hr, hr', hne⟩ := getAtRevision_ne_of_readTwice hdeleted (by decide)
    exact ⟨r, r', hr, hr', fun h => hne (h _ _)⟩

end Raftrust.Server
