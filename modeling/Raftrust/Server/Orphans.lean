import Raftrust.Mvcc.Readable
import Raftrust.Server.EventLoop
import Raftrust.Server.LeaseTable

/-!
# Keys of leases that end

A lease ends when its command is applied, when a client asks for it, or when a sweep finds that it
has expired. Its keys are then handed out, and whoever gets them is to delete them: the apply loop
in the store, the sweep by a proposal for each key. The service for clients drops them, and a sweep
does not look at what becomes of its proposals.
-/

namespace Raftrust.Server

open Lib Consensus Mvcc Storage

/-- The event loop goes on, or a client of the lease service calls. -/
inductive LeaseEvent where
  | server (e : ServerEvent)
  | leaseGrant (id ttl : Int64) (now : ℕ)
  | leaseKeepAlive (id : Int64) (now : ℕ)
  | leaseRevoke (id : Int64) (order : IterationOrder Bytes)

/-- The keys that the loop has been handed and is about to delete. -/
def LoopState.inHand : LoopState → List Bytes
  | expiring keys => keys
  | revoking _ _ keys _ => keys
  | _ => []

namespace ServerState

section

variable {σ : Type}

def setLeases (s : ServerState σ) (leases : LeaseManager) : ServerState σ :=
  { s with replica := { s.replica with leases := leases } }

/-- The keys that a lease hands out are not used. -/
def leaseRevoke (s : ServerState σ) (id : Int64) (order : IterationOrder Bytes) : ServerState σ :=
  match s.replica.leases.revoke id order with
  | .ok (_keys, leases) => s.setLeases leases
  | .error _ => s

def leaseGrant (s : ServerState σ) (id ttl : Int64) (now : ℕ) : ServerState σ :=
  match s.replica.leases.grant id ttl now with
  | .ok (_, _, leases) => s.setLeases leases
  | .error _ => s

def leaseKeepAlive (s : ServerState σ) (id : Int64) (now : ℕ) : ServerState σ :=
  match s.replica.leases.keepalive id now with
  | .ok (_, leases) => s.setLeases leases
  | .error _ => s

variable [StorageEngine σ] [Crc32] [ConfigJson] [CommandJson]

def leaseStep (s : ServerState σ) : LeaseEvent → ServerState σ
  | .server e => s.step e
  | .leaseGrant id ttl now => s.leaseGrant id ttl now
  | .leaseKeepAlive id now => s.leaseKeepAlive id now
  | .leaseRevoke id order => s.leaseRevoke id order

end

section

variable {σ : Type}

/-- The key has been taken from a lease. -/
def Released (s s' : ServerState σ) (key : Bytes) : Prop :=
  ∃ id, key ∈ s.replica.leases.keySet id ∧ key ∉ s'.replica.leases.keySet id

variable [StorageEngine σ] [CommandJson]

/-- The key has been deleted from the store, or a command that deletes it appended to the log. -/
def Handled (s s' : ServerState σ) (key : Bytes) : Prop :=
  (∃ revision existed, s.replica.store.delete key = .ok (revision, existed, s'.replica.store)) ∨
    ∃ entry : LogEntry, entry.entryType = .normal ∧ entry.data = (KvCommand.delete key).encode ∧
      s'.app.node.log.entries = s.app.node.log.entries ++ [entry]

end

section

variable {σ : Type}

/-- A grant that draws an identifier does not draw one of a lease with keys. -/
def GrantKeeps (s : ServerState σ) (id : Int64) : Prop :=
  id = 0 → s.replica.leases.keySet s.replica.leases.nextId = ∅
  deriving Decidable

def CommandKeeps (s : ServerState σ) : Option KvCommand → Prop
  | some (.leaseGrant id _) => s.GrantKeeps id
  | _ => True

instance (s : ServerState σ) : (cmd : Option KvCommand) → Decidable (s.CommandKeeps cmd)
  | some (.leaseGrant id _) => inferInstanceAs (Decidable (s.GrantKeeps id))
  | none | some (.put _ _ _ _) | some (.delete _) | some (.leaseRevoke _) => .isTrue trivial

variable [CommandJson]

/-- A sweep proposes while the node leads, with no transfer in progress, and its write to the log
succeeds. No call of the engine fails while the keys of a revoked lease are deleted. -/
def AdvanceKeeps (s : ServerState σ) (fault : Option EngineFault) (walFault : Option WalFault) :
    LoopState → Prop
  | .expiring (_ :: _) =>
    s.app.node.state.role = .leader ∧ s.app.node.transferState.isSome = false ∧ walFault.isNone
  | .revoking _ _ (_ :: _) _ => fault = none
  | .applying (entry :: _) => s.CommandKeeps (command? entry)
  | _ => True

instance (s : ServerState σ) (fault : Option EngineFault) (walFault : Option WalFault) :
    (loop : LoopState) → Decidable (s.AdvanceKeeps fault walFault loop)
  | .expiring (_ :: _) => inferInstanceAs (Decidable (_ ∧ _ ∧ _))
  | .revoking _ _ (_ :: _) _ => inferInstanceAs (Decidable (fault = none))
  | .applying (entry :: _) => inferInstanceAs (Decidable (s.CommandKeeps (command? entry)))
  | .expiring [] | .revoking _ _ [] _ | .applying [] | .idle | .putting _ _ _ _ _ _
  | .deleting _ _ _ _ | .stopped _ => .isTrue trivial

/-- A client revokes only leases without keys; the loop hands on the keys of all others. -/
def KeepsKeys (s : ServerState σ) : LeaseEvent → Prop
  | .leaseGrant id _ _ => s.GrantKeeps id
  | .leaseKeepAlive _ _ => True
  | .leaseRevoke id _ => s.replica.leases.keySet id = ∅
  | .server (.advance fault walFault _) => s.AdvanceKeeps fault walFault s.loop
  | .server _ => True

instance (s : ServerState σ) : (e : LeaseEvent) → Decidable (s.KeepsKeys e)
  | .leaseGrant id _ _ => inferInstanceAs (Decidable (s.GrantKeeps id))
  | .leaseRevoke id _ => inferInstanceAs (Decidable (s.replica.leases.keySet id = ∅))
  | .server (.advance fault walFault _) =>
    inferInstanceAs (Decidable (s.AdvanceKeeps fault walFault s.loop))
  | .leaseKeepAlive _ _ | .server (.call _) | .server (.sweep _ _ _) | .server .take =>
    .isTrue trivial

end

section

variable {σ : Type} [OrderedEngine σ] [CommandJson]

/-- What every step keeps: the store can be read, and a key that has been released or was in hand
has been handled or is in hand. -/
structure Kept (s s' : ServerState σ) : Prop where
  readable : s'.replica.store.Readable
  released : ∀ key, Released s s' key → Handled s s' key ∨ key ∈ s'.loop.inHand
  inHand : ∀ key ∈ s.loop.inHand, Handled s s' key ∨ key ∈ s'.loop.inHand

namespace Kept

variable {s s' : ServerState σ}

/-- A step that takes no key from a lease. -/
lemma of_subset (hreadable : s'.replica.store.Readable)
    (hsub : ∀ id, s.replica.leases.keySet id ⊆ s'.replica.leases.keySet id)
    (hhand : ∀ key ∈ s.loop.inHand, key ∈ s'.loop.inHand) : Kept s s' where
  readable := hreadable
  released := by
    rintro key ⟨id, hmem, hnot⟩
    exact absurd (hsub id hmem) hnot
  inHand key hkey := .inr (hhand key hkey)

lemma of_leases_eq (hreadable : s'.replica.store.Readable)
    (hleases : s'.replica.leases = s.replica.leases)
    (hhand : ∀ key ∈ s.loop.inHand, key ∈ s'.loop.inHand) : Kept s s' :=
  .of_subset hreadable (fun _ => by rw [hleases]) hhand

lemma of_handled (hreadable : s'.replica.store.Readable)
    (hleases : s'.replica.leases = s.replica.leases) {key : Bytes} {keys : List Bytes}
    (hhand : s.loop.inHand = key :: keys) (hhand' : s'.loop.inHand = keys)
    (hhandled : Handled s s' key) : Kept s s' where
  readable := hreadable
  released := by
    rintro k ⟨id, hmem, hnot⟩
    rw [hleases] at hnot
    exact absurd hmem hnot
  inHand := by
    intro k hk
    rw [hhand] at hk
    rcases List.mem_cons.mp hk with rfl | hmem
    · exact .inl hhandled
    · exact .inr (hhand' ▸ hmem)

end Kept

/-! ### One step -/

variable {s : ServerState σ}

lemma kept_fail {store : MvccStore σ} (hreadable : store.Readable) {entry : LogEntry}
    {rest : List LogEntry} {abort : Abort} (hloop : s.loop.inHand = []) :
    Kept s (s.fail store entry rest abort) := by
  cases abort with
  | error e => exact .of_leases_eq hreadable rfl (by simp [hloop])
  | panicked => exact .of_leases_eq hreadable rfl (by simp [hloop])

lemma kept_beginCommand (hreadable : s.replica.store.Readable) (fault : Option EngineFault)
    (m : Moment) {entry : LogEntry} {rest : List LogEntry} {cmd : KvCommand}
    (hloop : s.loop.inHand = [])
    (hkeeps : s.CommandKeeps (some cmd)) : Kept s (s.beginCommand fault m entry rest cmd) := by
  have hsame : ∀ loop, Kept s { s with loop := loop } := fun loop =>
    .of_leases_eq hreadable rfl (by simp [hloop])
  cases cmd with
  | put key value leaseId ttlSeconds =>
    rw [beginCommand]
    split
    · exact hsame _
    · exact kept_fail hreadable hloop
  | delete key =>
    rw [beginCommand]
    split
    · exact hsame _
    · exact kept_fail hreadable hloop
  | leaseGrant leaseId ttl =>
    rw [beginCommand]
    split
    · next hgrant =>
      refine .of_subset hreadable (fun id => ?_) (by simp [hloop])
      exact LeaseManager.keySet_subset_grant hgrant hkeeps id
    · exact .of_leases_eq hreadable rfl (by simp [hloop])
  | leaseRevoke leaseId =>
    rw [beginCommand]
    split
    · next keys leases hrevoke =>
      refine ⟨hreadable, ?_, by simp [hloop]⟩
      rintro key ⟨id, hmem, hnot⟩
      exact .inr (LeaseManager.mem_of_revoke hrevoke hmem hnot)
    · exact .of_leases_eq hreadable rfl (by simp [hloop])

variable [Crc32] [ConfigJson]

lemma kept_beginEntry (hreadable : s.replica.store.Readable) (fault : Option EngineFault)
    (walFault : Option WalFault) (m : Moment) {entry : LogEntry} {rest : List LogEntry}
    (hloop : s.loop = .applying (entry :: rest))
    (hkeeps : s.KeepsKeys (.server (.advance fault walFault m))) :
    Kept s (s.beginEntry fault walFault m entry rest) := by
  have hhand : s.loop.inHand = [] := by rw [hloop]; rfl
  have hfinish : ∀ app, Kept s (ServerState.finish { s with app := app } s.replica entry m rest) :=
    fun app => .of_leases_eq hreadable rfl (by simp [hhand])
  rw [beginEntry]
  cases htype : entry.entryType with
  | noop => exact hfinish _
  | configChange => exact hfinish _
  | normal =>
    by_cases hdata : entry.data = []
    · simp only [hdata, List.isEmpty_nil, if_true]
      exact hfinish _
    · simp only [List.isEmpty_iff, hdata, if_false]
      cases hdecode : KvCommand.decode entry.data with
      | error e => exact hfinish _
      | ok cmd =>
        refine kept_beginCommand hreadable fault m hhand ?_
        rwa [KeepsKeys, hloop, AdvanceKeeps, command?_eq_some htype hdata hdecode] at hkeeps

/-- The proposal of a sweep is appended to the log. -/
lemma kept_expiring (hreadable : s.replica.store.Readable) {fault : Option EngineFault}
    {walFault : Option WalFault} {m : Moment} {key : Bytes} {keys : List Bytes}
    (hloop : s.loop = .expiring (key :: keys))
    (hkeeps : s.KeepsKeys (.server (.advance fault walFault m))) :
    Kept s (s.advance fault walFault m) := by
  rw [KeepsKeys, hloop] at hkeeps
  obtain ⟨hrole, htransfer, hwal⟩ := hkeeps
  obtain rfl := Option.isNone_iff_eq_none.mp hwal
  have hlog := s.app.node.propose_entries hrole htransfer (KvCommand.delete key).encode
  simp only [advance, hloop]
  exact .of_handled hreadable rfl (by rw [hloop]; rfl) rfl (.inr ⟨_, rfl, rfl, hlog⟩)

/-- A key that is deleted is taken from its lease. -/
lemma kept_deleting (hreadable : s.replica.store.Readable) {fault : Option EngineFault}
    {walFault : Option WalFault} {m : Moment} {entry : LogEntry} {key : Bytes}
    {prev : Option KeyValue} {rest : List LogEntry}
    (hloop : s.loop = .deleting entry key prev rest) : Kept s (s.advance fault walFault m) := by
  have hhand : s.loop.inHand = [] := by rw [hloop]; rfl
  have hstore := hreadable.tryDelete fault key
  simp only [advance, hloop]
  split
  · next store result htry =>
    rw [htry] at hstore
    refine ⟨hstore, ?_, by simp [hhand]⟩
    rintro k ⟨id, hmem, hnot⟩
    obtain rfl := Replica.eq_of_detach s.replica.leases key hmem hnot
    exact .inl (.inl ⟨_, _, MvccStore.delete_of_tryDelete htry⟩)
  · next store abort htry =>
    rw [htry] at hstore
    exact kept_fail hstore hhand

/-- The keys of a revoked lease are deleted one by one. -/
lemma kept_revoking (hreadable : s.replica.store.Readable) {fault : Option EngineFault}
    {walFault : Option WalFault} {m m' : Moment} {entry : LogEntry} {key : Bytes}
    {keys : List Bytes} {rest : List LogEntry}
    (hloop : s.loop = .revoking entry m' (key :: keys) rest)
    (hkeeps : s.KeepsKeys (.server (.advance fault walFault m))) :
    Kept s (s.advance fault walFault m) := by
  rw [KeepsKeys, hloop] at hkeeps
  obtain rfl : fault = none := hkeeps
  have hstore := hreadable.tryDelete none key
  obtain ⟨existed, hdelete⟩ := hreadable.exists_delete key
  rw [MvccStore.delete_eq_tryDelete] at hdelete
  simp only [advance, hloop]
  rcases htry : s.replica.store.tryDelete none key with ⟨store, result⟩
  rw [htry] at hstore hdelete
  cases result with
  | error abort => cases hdelete
  | ok result =>
    exact .of_handled hstore rfl (by rw [hloop]; rfl) rfl
      (.inl ⟨result.1, result.2, MvccStore.delete_of_tryDelete htry⟩)

lemma kept_advance (hreadable : s.replica.store.Readable) (fault : Option EngineFault)
    (walFault : Option WalFault) (m : Moment)
    (hkeeps : s.KeepsKeys (.server (.advance fault walFault m))) :
    Kept s (s.advance fault walFault m) := by
  have hsame : ∀ loop : LoopState, s.loop.inHand = [] → Kept s { s with loop := loop } :=
    fun loop hhand => .of_leases_eq hreadable rfl (by simp [hhand])
  cases hloop : s.loop with
  | idle =>
    simp only [advance, hloop]
    exact .of_leases_eq hreadable rfl fun _ h => h
  | stopped rest =>
    simp only [advance, hloop]
    exact .of_leases_eq hreadable rfl fun _ h => h
  | applying rest =>
    cases rest with
    | nil =>
      simp only [advance, hloop]
      exact hsame _ (by rw [hloop]; rfl)
    | cons entry rest =>
      simp only [advance, hloop]
      exact kept_beginEntry hreadable fault walFault m hloop hkeeps
  | expiring keys =>
    cases keys with
    | nil =>
      simp only [advance, hloop]
      exact hsame _ (by rw [hloop]; rfl)
    | cons key keys => exact kept_expiring hreadable hloop hkeeps
  | putting entry key value leaseId ttlSeconds rest =>
    have hhand : s.loop.inHand = [] := by rw [hloop]; rfl
    have hstore := hreadable.tryPut fault key value leaseId ttlSeconds
    simp only [advance, hloop]
    split
    · next store revision htry =>
      rw [htry] at hstore
      refine .of_subset hstore (fun id => ?_) (by simp [hhand])
      exact Replica.keySet_subset_attach _ _ _ _
    · next store abort htry =>
      rw [htry] at hstore
      exact kept_fail hstore hhand
  | deleting entry key prev rest => exact kept_deleting hreadable hloop
  | revoking entry m' keys rest =>
    cases keys with
    | nil =>
      simp only [advance, hloop]
      exact .of_leases_eq hreadable rfl (by simp [hloop, LoopState.inHand])
    | cons key keys => exact kept_revoking hreadable hloop hkeeps

lemma kept_step (hreadable : s.replica.store.Readable) {e : ServerEvent}
    (hkeeps : s.KeepsKeys (.server e)) : Kept s (s.step e) := by
  have hsame : ∀ app, Kept s { s with app := app } := fun app =>
    .of_leases_eq hreadable rfl fun _ h => h
  cases e with
  | call e =>
    rw [step]
    split
    · exact hsame _
    · exact hsame _
  | sweep now ids order =>
    rw [step]
    split
    · next hloop =>
      refine ⟨hreadable, ?_, by simp [hloop, LoopState.inHand]⟩
      rintro key ⟨id, hmem, hnot⟩
      exact .inr (LeaseManager.mem_of_collectExpired hmem hnot)
    · exact hsame _
  | take =>
    rw [step]
    split
    · next hloop => exact .of_leases_eq hreadable rfl (by simp [hloop, LoopState.inHand])
    · exact hsame _
  | advance fault walFault m => exact kept_advance hreadable fault walFault m hkeeps

lemma kept_leaseStep (hreadable : s.replica.store.Readable) {e : LeaseEvent}
    (hkeeps : s.KeepsKeys e) : Kept s (s.leaseStep e) := by
  have hsame : Kept s s := .of_leases_eq hreadable rfl fun _ h => h
  cases e with
  | leaseGrant id ttl now =>
    rw [leaseStep, leaseGrant]
    split
    · next hgrant =>
      exact .of_subset hreadable (LeaseManager.keySet_subset_grant hgrant hkeeps) fun _ h => h
    · exact hsame
  | leaseKeepAlive id now =>
    rw [leaseStep, leaseKeepAlive]
    split
    · next hkeepalive =>
      refine .of_subset hreadable (fun id' => ?_) fun _ h => h
      exact (LeaseManager.keySet_keepalive hkeepalive id').ge
    · exact hsame
  | leaseRevoke id order =>
    rw [leaseStep, leaseRevoke]
    split
    · next hrevoke =>
      obtain ⟨-, hsets, -⟩ := LeaseManager.revoke_eq hrevoke
      refine .of_subset hreadable (fun id' => ?_) fun _ h => h
      refine subset_of_subset_of_eq ?_ (hsets id').symm
      split
      · next heq => exact heq ▸ (show s.replica.leases.keySet id = ∅ from hkeeps).subset
      · exact Finset.Subset.refl _
    · exact hsame
  | server e => exact kept_step hreadable hkeeps

/-! ### Runs -/

/-- The key is handled by one of the events. -/
def HandledIn (s : ServerState σ) (es : List LeaseEvent) (key : Bytes) : Prop :=
  ∃ es₁ e es₂, es = es₁ ++ e :: es₂ ∧
    Handled (run leaseStep s es₁) ((run leaseStep s es₁).leaseStep e) key

/-- Each key that an event takes from a lease is handled by the event or a later one, or the loop
still has it in hand. -/
def NoOrphans (s : ServerState σ) (es : List LeaseEvent) : Prop :=
  ∀ es₁ e es₂ key, es = es₁ ++ e :: es₂ →
    Released (run leaseStep s es₁) ((run leaseStep s es₁).leaseStep e) key →
      HandledIn (run leaseStep s es₁) (e :: es₂) key ∨ key ∈ (run leaseStep s es).loop.inHand

lemma HandledIn.snoc {es : List LeaseEvent} {key : Bytes} (h : HandledIn s es key)
    (e : LeaseEvent) : HandledIn s (es ++ [e]) key := by
  obtain ⟨es₁, e₁, es₂, rfl, hhandled⟩ := h
  exact ⟨es₁, e₁, es₂ ++ [e], by simp, hhandled⟩

lemma handledIn_last {es : List LeaseEvent} {e : LeaseEvent} {key : Bytes}
    (h : Handled (run leaseStep s es) ((run leaseStep s es).leaseStep e) key) :
    HandledIn s (es ++ [e]) key :=
  ⟨es, e, [], rfl, h⟩

/-- One more event. -/
lemma NoOrphans.snoc {es : List LeaseEvent} {e : LeaseEvent} (h : NoOrphans s es)
    (hkept : Kept (run leaseStep s es) ((run leaseStep s es).leaseStep e)) :
    NoOrphans s (es ++ [e]) := by
  intro es₁ e₁ es₂ key heq hreleased
  rw [run_snoc]
  rcases List.eq_nil_or_concat es₂ with rfl | ⟨es₃, e₃, rfl⟩
  · -- the event itself has released the key
    obtain ⟨rfl, hlast⟩ := List.append_inj' heq rfl
    obtain rfl : e = e₁ := by simpa using hlast
    exact (hkept.released key hreleased).imp_left fun hhandled => ⟨[], e, [], rfl, hhandled⟩
  · -- an earlier event has, and the key has been in hand until now unless it was handled
    rw [List.concat_eq_append, ← List.cons_append, ← List.append_assoc] at heq
    obtain ⟨rfl, hlast⟩ := List.append_inj' heq rfl
    obtain rfl : e = e₃ := by simpa using hlast
    rw [List.concat_eq_append, ← List.cons_append]
    rcases h es₁ e₁ es₃ key rfl hreleased with hhandled | hhand
    · exact .inl (hhandled.snoc e)
    · refine (hkept.inHand key hhand).imp_left fun hhandled => handledIn_last ?_
      rwa [← run_append]

/-- **No orphaned keys.** In a run whose steps all meet the condition, at every point: each key that
was taken from a lease since has been deleted from the store, or a command that deletes it has been
appended to the log, or the loop has it in hand. -/
theorem noOrphans_of_keepsKeys (config : NodeConfig) {initial : Replica σ}
    (hreadable : initial.store.Readable) {es : List LeaseEvent}
    (h : Along leaseStep KeepsKeys (init config initial) es) :
    NoOrphans (init config initial) es := by
  suffices NoOrphans (init config initial) es ∧
      (run leaseStep (init config initial) es).replica.store.Readable from this.1
  refine run_invariant leaseStep
    (fun es => NoOrphans (init config initial) es ∧
      (run leaseStep (init config initial) es).replica.store.Readable)
    ⟨?_, hreadable⟩ (fun es e _ hes he => ?_) h
  · intro es₁ e es₂ key heq
    simp at heq
  · have hkept := kept_leaseStep hes.2 he
    rw [run_snoc]
    exact ⟨hes.1.snoc hkept, hkept.readable⟩

end

end ServerState

/-! ### Runs -/

namespace OrphanRuns

open Runs

def grant : KvCommand := .leaseGrant 1 10

def putA : KvCommand := .put [97] [49] 1 0

def revoke : KvCommand := .leaseRevoke 1

scoped instance : CommandJson := .text [grant, putA, revoke]

def next : LeaseEvent :=
  .server (LoopRuns.next none)

/-- Node 2 applies commands that its leader has committed. -/
def applied (cmds : List KvCommand) : List LeaseEvent :=
  [.server (.call ⟨.appendEntries ⟨1, 1, 0, 0,
      cmds.mapIdx fun i cmd => ⟨i + 1, 1, cmd.encode, .normal⟩, cmds.length⟩, none⟩),
    .server .take] ++ List.replicate (3 * cmds.length) next

/-- A client revokes the lease. -/
def revokeByClient : List LeaseEvent :=
  [.leaseRevoke 1 (.ascending Bytes)]

/-- The lease expires, and the loop goes over its key. -/
def expire : List LeaseEvent :=
  [.server (.sweep (10 * 10 ^ 9) (.ascending Int64) (.ascending Bytes)), next, next]

/-- Neither the revision of the store nor the length of the log has changed. -/
def unchanged (s s' : ServerState (Std.TreeMap Bytes Bytes)) : Bool :=
  s'.replica.store.currentRevision = s.replica.store.currentRevision ∧
    s'.app.node.log.entries.length = s.app.node.log.entries.length

lemma not_handled_of_unchanged {s s' : ServerState (Std.TreeMap Bytes Bytes)} {key : Bytes}
    (h : unchanged s s' = true) : ¬ s.Handled s' key := by
  obtain ⟨hrev, hlog⟩ := of_decide_eq_true h
  rintro (⟨revision, existed, hdelete⟩ | ⟨entry, -, -, hentries⟩)
  · obtain ⟨info, -, hrest⟩ := bind_eq_ok_iff.mp hdelete
    have hstore := congrArg (fun x => x.2.2.currentRevision) (Except.ok.inj hrest)
    simp only [hrev] at hstore
    omega
  · rw [hentries, List.length_append, List.length_singleton] at hlog
    omega

/-- The key is not handled by any of the events. -/
lemma not_handledIn_of_unchanged {s : ServerState (Std.TreeMap Bytes Bytes)}
    {es : List LeaseEvent} {key : Bytes}
    (h : ∀ i < es.length, unchanged (run ServerState.leaseStep s (es.take i))
      (run ServerState.leaseStep s (es.take (i + 1))) = true) : ¬ s.HandledIn es key := by
  rintro ⟨es₁, e, es₂, rfl, hhandled⟩
  have hunchanged := h es₁.length (by simp)
  have htake : (es₁ ++ e :: es₂).take (es₁.length + 1) = es₁ ++ [e] := by
    rw [List.append_cons, List.take_left' (by simp)]
  rw [List.take_left, htake, run_snoc] at hunchanged
  exact not_handled_of_unchanged hunchanged hhandled

end OrphanRuns

section

open Runs OrphanRuns

/-- The command that revokes a lease deletes its key. -/
theorem ServerState.noOrphans_revokeByCommand :
    ServerState.NoOrphans LoopRuns.fresh (applied [grant, putA, revoke]) := by
  have h : Along ServerState.leaseStep ServerState.KeepsKeys LoopRuns.fresh
      (applied [grant, putA, revoke]) := by
    decide +kernel
  exact ServerState.noOrphans_of_keepsKeys _ MvccStore.readable_new h

/-- A lease that a client revokes, and one that expires on a node that does not lead, leave their
key in the store, without a command that would delete it. -/
theorem ServerState.revoke_and_expire_orphan :
    ¬ ServerState.NoOrphans LoopRuns.fresh (applied [grant, putA] ++ revokeByClient) ∧
      ¬ ServerState.NoOrphans LoopRuns.fresh (applied [grant, putA] ++ expire) := by
  constructor
  · intro h
    rcases h (applied [grant, putA]) (.leaseRevoke 1 (.ascending Bytes)) [] [97] rfl
      ⟨1, by decide +kernel, by decide +kernel⟩ with hhandled | hhand
    · exact not_handledIn_of_unchanged (by decide +kernel) hhandled
    · revert hhand
      decide +kernel
  · intro h
    rcases h (applied [grant, putA])
      (.server (.sweep (10 * 10 ^ 9) (.ascending Int64) (.ascending Bytes))) [next, next] [97] rfl
      ⟨1, by decide +kernel, by decide +kernel⟩ with hhandled | hhand
    · exact not_handledIn_of_unchanged (by decide +kernel) hhandled
    · revert hhand
      decide +kernel

end

end Raftrust.Server
