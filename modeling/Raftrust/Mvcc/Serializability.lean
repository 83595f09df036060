import Mathlib.Data.List.Perm.Basic
import Raftrust.Mvcc.Serial

/-!
# Serializability

A commit validates its reads and then writes, with nothing that keeps a second commit out. In runs
in which commits do not overlap, and no read falls between two writes of its key by one commit, the
committed transactions behave as in a serial execution in the order of their revisions.
-/

namespace Raftrust.Mvcc

open Lib

/-! ### Commits that have begun to write -/

/-- The revision of a commit that has allocated one, and the writes it has left. -/
def TxnStatus.remaining : TxnStatus → Option (ℕ × List (Bytes × Option Bytes))
  | writing revision writes => some (revision, writes)
  | storing revision _ key value writes => some (revision, (key, some value) :: writes)
  | _ => none

lemma TxnStatus.committing_of_remaining {status : TxnStatus}
    {remaining : ℕ × List (Bytes × Option Bytes)} (h : status.remaining = some remaining) :
    status.committing = true := by
  cases status <;> first | rfl | cases h

namespace TxnState

/-- The commit has written the key and will write it again. -/
def rewrites (t : TxnState) (key : Bytes) : Bool :=
  t.status.remaining.any fun (_, rest) =>
    key ∈ rest.map (·.1) ∧
      key ∈ (t.txn.writeSet.take (t.txn.writeSet.length - rest.length)).map (·.1)

/-- The commit will write the key at revision `r`. -/
def Overwrites (t : TxnState) (key : Bytes) (r : ℕ) : Prop :=
  ∃ rest, t.status.remaining = some (r, rest) ∧ key ∈ rest.map (·.1)

/-- The revision and the history of a transaction that has committed. -/
def commit? (t : TxnState) : Option (ℕ × List TxnOp) :=
  match t.status with
  | .committed revision => some (revision, t.history)
  | _ => none

end TxnState

namespace TxnSystem

variable {σ : Type} [SnapshotStore σ]

open SnapshotStore

def new (store : σ) : TxnSystem σ where
  store := store
  txns := []

/-- The committed transactions with their revisions. -/
def committed (sys : TxnSystem σ) : List (ℕ × List TxnOp) :=
  sys.txns.filterMap TxnState.commit?

/-- The committed transactions, in the order of their revisions, are a serial execution from the
values of `initial`. When no commit is under way the store is the result: its present values, and
its values at every revision since `initial`. -/
def Serializable (initial : σ) (sys : TxnSystem σ) : Prop :=
  ∃ cs : List (ℕ × List TxnOp), cs.Perm sys.committed ∧ cs.Pairwise (·.1 < ·.1) ∧
    Serial (get initial) cs ∧
    ((∀ t ∈ sys.txns, t.status.committing = false) →
      get sys.store = replay (get initial) (cs.map commitWrites) ∧
      Reflects initial (cs.map commitWrites) sys.store)

/-- A commit with writes begins when no other one is under way, a read of the store does not fall
between two writes of its key by one commit, and revisions do not run out. -/
def CommitsAlone (sys : TxnSystem σ) : TxnEvent → Prop
  | .commit id => ∀ t ∈ sys.txns[id]?, t.txn.writeSet ≠ [] →
      ∀ u ∈ sys.txns, u.status.committing = false
  | .get id key => ∀ t ∈ sys.txns[id]?, lastWrite t.txn.writeSet key = none →
      ∀ u ∈ sys.txns, u.rewrites key = false
  | .advance id => ∀ t ∈ sys.txns[id]?, t.status = .validating [] →
      revision sys.store + 1 < 2 ^ 64
  | _ => True

instance (sys : TxnSystem σ) (e : TxnEvent) : Decidable (sys.CommitsAlone e) := by
  cases e <;> unfold CommitsAlone <;> infer_instance

end TxnSystem

/-! ### Histories -/

section

variable {σ : Type} [SnapshotStore σ]

open SnapshotStore

/-- The transaction's sets are those of its history: its writes are the write set, and every read
returned an own write or a version that is in the read set. -/
structure TxnState.Tracks (s : σ) (t : TxnState) : Prop where
  writeSet : t.txn.writeSet = writesOf t.history
  bounded : ∀ read ∈ t.txn.readSet, read.2 ≤ revision s
  own : ∀ pre key result post value, t.history = pre ++ .get key result :: post →
    lastWrite (writesOf pre) key = some value → result = value
  stored : ∀ pre key result post, t.history = pre ++ .get key result :: post →
    lastWrite (writesOf pre) key = none → ∃ m, (key, m) ∈ t.txn.readSet ∧ ReadOf s key m result

/-- Where a read stands in a history that has grown by one operation. -/
lemma snoc_eq_append_get {history pre post : List TxnOp} {op : TxnOp} {key : Bytes}
    {result : Option Bytes} (h : history ++ [op] = pre ++ .get key result :: post) :
    (history = pre ∧ op = .get key result) ∨
      ∃ post', history = pre ++ .get key result :: post' := by
  rcases List.eq_nil_or_concat post with rfl | ⟨post', op', rfl⟩
  · obtain ⟨hpre, hop⟩ := List.append_inj' h rfl
    exact .inl ⟨hpre, List.singleton_inj.mp hop⟩
  · rw [List.concat_eq_append, ← List.cons_append, ← List.append_assoc] at h
    exact .inr ⟨post', (List.append_inj' h rfl).1⟩

namespace TxnState.Tracks

variable {s s' : σ} {t : TxnState}

lemma mono (h : t.Tracks s) (hrev : revision s ≤ revision s')
    (hreads : ∀ key m value, (key, m) ∈ t.txn.readSet → ReadOf s key m value →
      ReadOf s' key m value) : t.Tracks s' where
  writeSet := h.writeSet
  bounded read hread := (h.bounded read hread).trans hrev
  own := h.own
  stored pre key result post hhistory hwrite := by
    obtain ⟨m, hm, hread⟩ := h.stored pre key result post hhistory hwrite
    exact ⟨m, hm, hreads key m result hm hread⟩

lemma setStatus (h : t.Tracks s) (status : TxnStatus) :
    TxnState.Tracks s { t with status := status } :=
  ⟨h.writeSet, h.bounded, h.own, h.stored⟩

lemma readsFrom (h : t.Tracks s) (hwf : WellFormed s)
    (hvalid : ∀ read ∈ t.txn.readSet, modRevisionOf (get s read.1) = read.2) :
    ReadsFrom (get s) t.history := by
  intro pre key result post hhistory
  cases hwrite : lastWrite (writesOf pre) key with
  | some value => exact h.own pre key result post value hhistory hwrite
  | none =>
    obtain ⟨m, hm, hread⟩ := h.stored pre key result post hhistory hwrite
    exact hwf.readOf_current hread (hvalid _ hm)

/-- One more operation that is no read. -/
lemma snoc_write {op : TxnOp} {w : Bytes × Option Bytes} (h : t.Tracks s)
    (hop : op.write = some w) :
    TxnState.Tracks s
      { t with
        txn := { t.txn with writeSet := t.txn.writeSet ++ [w] }
        history := t.history ++ [op] } where
  writeSet := by simp [h.writeSet, writesOf, hop]
  bounded := h.bounded
  own pre key result post value hhistory := by
    rcases snoc_eq_append_get hhistory with ⟨-, rfl⟩ | ⟨post', hhistory⟩
    · cases hop
    · exact h.own pre key result post' value hhistory
  stored pre key result post hhistory := by
    rcases snoc_eq_append_get hhistory with ⟨-, rfl⟩ | ⟨post', hhistory⟩
    · cases hop
    · exact h.stored pre key result post' hhistory

lemma snoc_own {key : Bytes} {value : Option Bytes} (h : t.Tracks s)
    (hwrite : lastWrite t.txn.writeSet key = some value) :
    TxnState.Tracks s { t with history := t.history ++ [.get key value] } where
  writeSet := by simp [h.writeSet, writesOf, TxnOp.write]
  bounded := h.bounded
  own pre key' result post value' hhistory hwrite' := by
    rcases snoc_eq_append_get hhistory with ⟨rfl, hop⟩ | ⟨post', hhistory⟩
    · obtain ⟨rfl, rfl⟩ := TxnOp.get.inj hop
      rw [← h.writeSet, hwrite] at hwrite'
      exact Option.some.inj hwrite'
    · exact h.own pre key' result post' value' hhistory hwrite'
  stored pre key' result post hhistory hwrite' := by
    rcases snoc_eq_append_get hhistory with ⟨rfl, hop⟩ | ⟨post', hhistory⟩
    · obtain ⟨rfl, rfl⟩ := TxnOp.get.inj hop
      simp [← h.writeSet, hwrite] at hwrite'
    · exact h.stored pre key' result post' hhistory hwrite'

/-- One more read, of the version at revision `m`. -/
lemma snoc_stored {key : Bytes} {m : ℕ} {result : Option Bytes} (h : t.Tracks s)
    (hwrite : lastWrite t.txn.writeSet key = none) (hm : m ≤ revision s)
    (hread : ReadOf s key m result) :
    TxnState.Tracks s
      { t with
        txn := { t.txn with readSet := t.txn.readSet ++ [(key, m)] }
        history := t.history ++ [.get key result] } where
  writeSet := by simp [h.writeSet, writesOf, TxnOp.write]
  bounded := by
    simp only [List.mem_append, List.mem_singleton]
    rintro read (hmem | rfl)
    · exact h.bounded read hmem
    · exact hm
  own pre key' result' post value hhistory hwrite' := by
    rcases snoc_eq_append_get hhistory with ⟨rfl, hop⟩ | ⟨post', hhistory⟩
    · obtain ⟨rfl, rfl⟩ := TxnOp.get.inj hop
      simp [← h.writeSet, hwrite] at hwrite'
    · exact h.own pre key' result' post' value hhistory hwrite'
  stored pre key' result' post hhistory hwrite' := by
    rcases snoc_eq_append_get hhistory with ⟨rfl, hop⟩ | ⟨post', hhistory⟩
    · obtain ⟨rfl, rfl⟩ := TxnOp.get.inj hop
      exact ⟨m, by simp, hread⟩
    · obtain ⟨m', hm', hread'⟩ := h.stored pre key' result' post' hhistory hwrite'
      exact ⟨m', List.mem_append_left _ hm', hread'⟩

end TxnState.Tracks

/-! ### The commit under way -/

end

/-- Only transaction `id` may be committing. -/
def OnlyCommit (txns : List TxnState) (id : ℕ) : Prop :=
  ∀ j u, txns[j]? = some u → u.status.committing → j = id

lemma OnlyCommit.set {txns : List TxnState} {id : ℕ} (h : OnlyCommit txns id) (t : TxnState) :
    OnlyCommit (txns.set id t) id := by
  intro j u hu hc
  by_contra hj
  rw [List.getElem?_set_ne (Ne.symm hj)] at hu
  exact hj (h j u hu hc)

/-- No commit is left when the one under way is over. -/
lemma OnlyCommit.forall_set {txns : List TxnState} {id : ℕ} (h : OnlyCommit txns id)
    {t : TxnState} (hid : id < txns.length) (ht : t.status.committing = false) :
    ∀ u ∈ txns.set id t, u.status.committing = false := by
  intro u hu
  obtain ⟨j, hj⟩ := List.mem_iff_getElem?.mp hu
  rw [← Bool.not_eq_true]
  intro hc
  obtain rfl := h.set t j u hj hc
  rw [List.getElem?_set_self hid] at hj
  cases hj
  rw [ht] at hc
  cases hc

lemma committed_set {txns : List TxnState} {id : ℕ} {t t' : TxnState} (ht : txns[id]? = some t)
    (hcommit : t.commit? = none) :
    ((txns.set id t').filterMap TxnState.commit?).Perm
      (txns.filterMap TxnState.commit? ++ t'.commit?.toList) := by
  obtain ⟨hid, rfl⟩ := List.getElem?_eq_some_iff.mp ht
  have hold := (List.getElem_cons_eraseIdx_perm hid).filterMap TxnState.commit?
  have hset := (List.set_perm_cons_eraseIdx hid t').filterMap TxnState.commit?
  rw [List.filterMap_cons_none hcommit] at hold
  refine hset.trans (.trans ?_ (hold.append_right _))
  cases hc : t'.commit? with
  | none => simp [List.filterMap_cons_none hc]
  | some c =>
    rw [List.filterMap_cons_some hc, Option.toList_some]
    exact (List.perm_append_singleton c _).symm

section

variable {σ : Type} [SnapshotStore σ]

open SnapshotStore

/-- Transaction `id` has the reads `rest` left to validate. -/
structure TxnSystem.Validating (initial : σ) (sys : TxnSystem σ) (cs : List (ℕ × List TxnOp))
    (id : ℕ) (t : TxnState) (rest : List (Bytes × ℕ)) : Prop where
  txn : sys.txns[id]? = some t
  status : t.status = .validating rest
  alone : OnlyCommit sys.txns id
  valid : ∀ read ∈ t.txn.readSet, read ∈ rest ∨ modRevisionOf (get sys.store read.1) = read.2
  store : Reflects initial (cs.map commitWrites) sys.store

/-- Transaction `id` has passed validation and has made the writes `done`. -/
structure TxnSystem.Writing (initial : σ) (sys : TxnSystem σ) (cs : List (ℕ × List TxnOp))
    (id : ℕ) (t : TxnState) (done rest : List (Bytes × Option Bytes)) : Prop where
  txn : sys.txns[id]? = some t
  status : t.status.remaining = some (revision sys.store, rest)
  alone : OnlyCommit sys.txns id
  create : ∀ rev create key value writes, t.status = .storing rev create key value writes →
    create = readCreateRevision (get sys.store key) rev
  writeSet : t.txn.writeSet = done ++ rest
  written : ∀ key vv, version sys.store key (revision sys.store) = some vv →
    key ∈ done.map (·.1)
  last : ∀ c ∈ cs, c.1 < revision sys.store
  pos : 0 < revision sys.store
  reads : ReadsFrom (replay (get initial) (cs.map commitWrites)) t.history
  store : Reflects initial (cs.map commitWrites ++ [(revision sys.store, done)]) sys.store

/-- How far the commit under way has come, and what the store reflects at that point. -/
inductive TxnSystem.Phase (initial : σ) (sys : TxnSystem σ) (cs : List (ℕ × List TxnOp)) : Prop
  | idle (none : ∀ u ∈ sys.txns, u.status.committing = false)
      (store : Reflects initial (cs.map commitWrites) sys.store)
  | validating {id : ℕ} {t : TxnState} {rest : List (Bytes × ℕ)}
      (h : sys.Validating initial cs id t rest)
  | writing {id : ℕ} {t : TxnState} {done rest : List (Bytes × Option Bytes)}
      (h : sys.Writing initial cs id t done rest)

namespace TxnSystem.Phase

variable {initial : σ} {sys : TxnSystem σ} {cs : List (ℕ × List TxnOp)}

/-- The phase is a matter of the store and the commits under way. -/
lemma congr {txns : List TxnState} (h : sys.Phase initial cs)
    (htxns : ∀ (id : ℕ) (t : TxnState), t.status.committing →
      (txns[id]? = some t ↔ sys.txns[id]? = some t)) :
    TxnSystem.Phase initial { sys with txns := txns } cs := by
  have halone : ∀ {id}, OnlyCommit sys.txns id → OnlyCommit txns id :=
    fun halone j u hu hc => halone j u ((htxns j u hc).mp hu) hc
  cases h with
  | idle hnone hstore =>
    refine .idle (fun u hu => ?_) hstore
    obtain ⟨i, hi⟩ := List.mem_iff_getElem?.mp hu
    rw [← Bool.not_eq_true]
    intro hc
    rw [hnone u (List.mem_of_getElem? ((htxns i u hc).mp hi))] at hc
    cases hc
  | validating h =>
    have hc := congrArg TxnStatus.committing h.status
    exact .validating
      { h with txn := (htxns _ _ hc).mpr h.txn, alone := halone h.alone }
  | writing h =>
    have hc := TxnStatus.committing_of_remaining h.status
    exact .writing { h with txn := (htxns _ _ hc).mpr h.txn, alone := halone h.alone }

lemma of_validating {id : ℕ} {t : TxnState} {rest : List (Bytes × ℕ)} (h : sys.Phase initial cs)
    (ht : sys.txns[id]? = some t) (hstatus : t.status = .validating rest) :
    sys.Validating initial cs id t rest := by
  have hc : t.status.committing = true := congrArg TxnStatus.committing hstatus
  cases h with
  | idle hnone =>
    rw [hnone t (List.mem_of_getElem? ht)] at hc
    cases hc
  | validating h =>
    obtain rfl := h.alone id t ht hc
    obtain rfl := Option.some.inj (ht.symm.trans h.txn)
    obtain rfl := TxnStatus.validating.inj (hstatus.symm.trans h.status)
    exact h
  | writing h =>
    obtain rfl := h.alone id t ht hc
    obtain rfl := Option.some.inj (ht.symm.trans h.txn)
    have := h.status
    rw [hstatus] at this
    cases this

lemma of_writing {id rev : ℕ} {t : TxnState} {rest : List (Bytes × Option Bytes)}
    (h : sys.Phase initial cs) (ht : sys.txns[id]? = some t)
    (hstatus : t.status.remaining = some (rev, rest)) :
    rev = revision sys.store ∧ ∃ done, sys.Writing initial cs id t done rest := by
  have hc := TxnStatus.committing_of_remaining hstatus
  cases h with
  | idle hnone =>
    rw [hnone t (List.mem_of_getElem? ht)] at hc
    cases hc
  | validating h =>
    obtain rfl := h.alone id t ht hc
    obtain rfl := Option.some.inj (ht.symm.trans h.txn)
    simp [h.status, TxnStatus.remaining] at hstatus
  | writing h =>
    obtain rfl := h.alone id t ht hc
    obtain rfl := Option.some.inj (ht.symm.trans h.txn)
    obtain ⟨rfl, rfl⟩ := Prod.mk.inj (Option.some.inj (hstatus.symm.trans h.status))
    exact ⟨rfl, _, h⟩

end TxnSystem.Phase

/-- The commit makes one of its writes and has those behind it left. -/
lemma TxnSystem.Writing.putVersioned {initial : σ} {sys : TxnSystem σ}
    {cs : List (ℕ × List TxnOp)} {id create : ℕ} {t : TxnState} {w : Bytes × Option Bytes}
    {done rest : List (Bytes × Option Bytes)} (h : sys.Writing initial cs id t done (w :: rest))
    (hwf : WellFormed sys.store)
    (hcreate : w.2.isSome → create = readCreateRevision (get sys.store w.1) (revision sys.store)) :
    TxnSystem.Writing initial
      { store := SnapshotStore.putVersioned sys.store w.1
          (versionOf w.2 create (revision sys.store)) (revision sys.store)
        txns := sys.txns.set id { t with status := .writing (revision sys.store) rest } }
      cs id { t with status := .writing (revision sys.store) rest } (done ++ [w]) rest where
  txn := List.getElem?_set_self (List.getElem?_eq_some_iff.mp h.txn).1
  status := by simp only [TxnStatus.remaining, revision_putVersioned]
  alone := h.alone.set _
  create := by simp
  writeSet := by simp [h.writeSet]
  written := by
    intro key vv hvv
    simp only [revision_putVersioned, version_putVersioned] at hvv
    rw [List.map_append, List.mem_append]
    split_ifs at hvv with heq
    · exact .inr (by simp [heq.1])
    · exact .inl (h.written key vv hvv)
  last := by simpa only [revision_putVersioned] using h.last
  pos := by simpa only [revision_putVersioned] using h.pos
  reads := h.reads
  store := by simpa only [revision_putVersioned] using h.store.putVersioned hwf hcreate

/-! ### The invariant -/

/-- The committed transactions `cs` are a serial execution, and what the others have read will not
be written over. -/
structure TxnSystem.Serializes (initial : σ) (sys : TxnSystem σ) (cs : List (ℕ × List TxnOp)) :
    Prop where
  wf : WellFormed sys.store
  initial_le : revision initial ≤ revision sys.store
  tracks : ∀ t ∈ sys.txns, t.Tracks sys.store
  settled : ∀ t ∈ sys.txns, ∀ read ∈ t.txn.readSet, ∀ u ∈ sys.txns, ¬ u.Overwrites read.1 read.2
  perm : cs.Perm sys.committed
  sorted : cs.Pairwise (·.1 < ·.1)
  bounded : ∀ c ∈ cs, c.1 ≤ revision sys.store
  serial : Serial (get initial) cs
  phase : sys.Phase initial cs

namespace TxnSystem.Serializes

variable {initial s' : σ} {sys : TxnSystem σ} {cs : List (ℕ × List TxnOp)} {id : ℕ}
  {t t' : TxnState}

lemma new (hwf : WellFormed initial) : (TxnSystem.new initial).Serializes initial [] where
  wf := hwf
  initial_le := le_rfl
  tracks := by simp [TxnSystem.new]
  settled := by simp [TxnSystem.new]
  perm := by simp [TxnSystem.new, committed]
  sorted := .nil
  bounded := by simp
  serial := trivial
  phase := .idle (by simp [TxnSystem.new]) (.nil hwf)

variable (h : sys.Serializes initial cs)
include h

/-- Between commits the store reflects all of them. -/
lemma reflects (hnone : ∀ u ∈ sys.txns, u.status.committing = false) :
    Reflects initial (cs.map commitWrites) sys.store := by
  cases h.phase with
  | idle _ hstore => exact hstore
  | validating hphase => exact hphase.store
  | writing hphase =>
    have := hnone _ (List.mem_of_getElem? hphase.txn)
    rw [TxnStatus.committing_of_remaining hphase.status] at this
    cases this

lemma serializable : sys.Serializable initial := by
  refine ⟨cs, h.perm, h.sorted, h.serial, fun hquiet => ?_⟩
  have hstore := h.reflects hquiet
  refine ⟨hstore.get_eq h.wf h.initial_le fun c hc => ?_, hstore⟩
  obtain ⟨d, hd, rfl⟩ := List.mem_map.mp hc
  exact h.bounded d hd

section

variable (ht : sys.txns[id]? = some t)
include ht

/-- One transaction and the store change. -/
lemma set (hcommit : t.commit? = none) (hwf : WellFormed s')
    (hrev : revision sys.store ≤ revision s')
    (hreads : ∀ key m value, (∀ u ∈ sys.txns, ¬ u.Overwrites key m) →
      ReadOf sys.store key m value → ReadOf s' key m value)
    (htracks : t'.Tracks s')
    (hover : ∀ key m, m ≤ revision sys.store → t'.Overwrites key m → t.Overwrites key m)
    (hsettled : ∀ read ∈ t'.txn.readSet, read.2 ≤ revision sys.store ∧
      ∀ u ∈ sys.txns, ¬ u.Overwrites read.1 read.2)
    (hnew : ∀ c ∈ t'.commit?, (∀ d ∈ cs, d.1 < c.1) ∧ c.1 ≤ revision s' ∧
      ReadsFrom (replay (get initial) (cs.map commitWrites)) c.2)
    (hphase : TxnSystem.Phase initial { store := s', txns := sys.txns.set id t' }
      (cs ++ t'.commit?.toList)) :
    TxnSystem.Serializes initial { store := s', txns := sys.txns.set id t' }
      (cs ++ t'.commit?.toList) where
  wf := hwf
  initial_le := h.initial_le.trans hrev
  tracks u hu := by
    rcases List.mem_or_eq_of_mem_set hu with hu | rfl
    · exact (h.tracks u hu).mono hrev fun key m value hread =>
        hreads key m value (h.settled u hu (key, m) hread)
    · exact htracks
  -- what has been read is not overwritten: not by the others, and not by this one
  settled u hu read hread v hv := by
    have hold : read.2 ≤ revision sys.store ∧ ∀ v ∈ sys.txns, ¬ v.Overwrites read.1 read.2 := by
      rcases List.mem_or_eq_of_mem_set hu with hu | rfl
      · exact ⟨(h.tracks u hu).bounded read hread, h.settled u hu read hread⟩
      · exact hsettled read hread
    rcases List.mem_or_eq_of_mem_set hv with hv | rfl
    · exact hold.2 v hv
    · exact fun hw => hold.2 t (List.mem_of_getElem? ht) (hover _ _ hold.1 hw)
  perm := (h.perm.append_right _).trans (committed_set ht hcommit).symm
  sorted := by
    rw [List.pairwise_append]
    refine ⟨h.sorted, by cases t'.commit? <;> simp, fun d hd c hc => ?_⟩
    exact (hnew c (Option.mem_toList.mp hc)).1 d hd
  bounded c hc := by
    rcases List.mem_append.mp hc with hc | hc
    · exact (h.bounded c hc).trans hrev
    · exact (hnew c (Option.mem_toList.mp hc)).2.1
  serial := by
    cases hc : t'.commit? with
    | none => simpa using h.serial
    | some c => exact (serial_snoc _ cs c).mpr ⟨h.serial, (hnew c hc).2.2⟩
  phase := hphase

/-- The transaction goes on without a call that changes the store, and its commit is not over. -/
lemma setQuiet (hcommit : t.commit? = none) (hcommit' : t'.commit? = none)
    (htracks : t'.Tracks sys.store) (hover : ∀ key m, t'.Overwrites key m → t.Overwrites key m)
    (hsettled : ∀ read ∈ t'.txn.readSet, ∀ u ∈ sys.txns, ¬ u.Overwrites read.1 read.2)
    (hphase : TxnSystem.Phase initial { sys with txns := sys.txns.set id t' } cs) :
    TxnSystem.Serializes initial { sys with txns := sys.txns.set id t' } cs := by
  have := h.set ht hcommit h.wf le_rfl (fun _ _ _ _ hread => hread) htracks
    (fun key m _ => hover key m)
    (fun read hread => ⟨htracks.bounded read hread, hsettled read hread⟩)
    (by simp [hcommit']) (by simpa [hcommit'] using hphase)
  simpa [hcommit'] using this

/-- A transaction that is not committing changes and does not commit. -/
lemma setActive (hstatus : t.status = .active) (hstatus' : t'.status.committing = false)
    (hcommit' : t'.commit? = none) (htracks : t'.Tracks sys.store)
    (hsettled : ∀ read ∈ t'.txn.readSet, ∀ u ∈ sys.txns, ¬ u.Overwrites read.1 read.2) :
    TxnSystem.Serializes initial { sys with txns := sys.txns.set id t' } cs := by
  refine h.setQuiet ht (by simp [TxnState.commit?, hstatus]) hcommit' htracks ?_ hsettled ?_
  · rintro key m ⟨rest, hrest, -⟩
    rw [TxnStatus.committing_of_remaining hrest] at hstatus'
    cases hstatus'
  · refine h.phase.congr fun i u hu => ?_
    have hlt := (List.getElem?_eq_some_iff.mp ht).1
    by_cases hi : id = i
    · subst hi
      rw [List.getElem?_set_self hlt, ht]
      constructor
      · rintro ⟨⟩
        rw [hstatus'] at hu
        cases hu
      · rintro ⟨⟩
        rw [hstatus] at hu
        cases hu
    · rw [List.getElem?_set_ne hi]

/-! ### Steps of a commit -/

/-- The status of a transaction changes and the store may change. -/
lemma setStatus (status : TxnStatus) (hcommit : t.commit? = none) (hwf : WellFormed s')
    (hrev : revision sys.store ≤ revision s')
    (hreads : ∀ key m value, (∀ u ∈ sys.txns, ¬ u.Overwrites key m) →
      ReadOf sys.store key m value → ReadOf s' key m value)
    (hover : ∀ key m, m ≤ revision sys.store →
      TxnState.Overwrites { t with status := status } key m → t.Overwrites key m)
    (hnew : ∀ c ∈ TxnState.commit? { t with status := status },
      (∀ d ∈ cs, d.1 < c.1) ∧ c.1 ≤ revision s' ∧
        ReadsFrom (replay (get initial) (cs.map commitWrites)) c.2)
    (hphase : TxnSystem.Phase initial
      { store := s', txns := sys.txns.set id { t with status := status } }
      (cs ++ (TxnState.commit? { t with status := status }).toList)) :
    TxnSystem.Serializes initial
      { store := s', txns := sys.txns.set id { t with status := status } }
      (cs ++ (TxnState.commit? { t with status := status }).toList) := by
  have hmem := List.mem_of_getElem? ht
  have htracks : t.Tracks s' := (h.tracks t hmem).mono hrev fun key m value hread =>
    hreads key m value (h.settled t hmem (key, m) hread)
  exact h.set ht hcommit hwf hrev hreads (htracks.setStatus status) hover
    (fun read hread => ⟨(h.tracks t hmem).bounded read hread, h.settled t hmem read hread⟩)
    hnew hphase

/-- The status changes to one before the first write. -/
lemma setStatusQuiet {status : TxnStatus} (hcommit : t.commit? = none)
    (hremaining : status.remaining = none)
    (hcommit' : TxnState.commit? { t with status := status } = none)
    (hphase : TxnSystem.Phase initial
      { sys with txns := sys.txns.set id { t with status := status } } cs) :
    TxnSystem.Serializes initial
      { sys with txns := sys.txns.set id { t with status := status } } cs := by
  have hmem := List.mem_of_getElem? ht
  refine h.setQuiet ht hcommit hcommit' ((h.tracks t hmem).setStatus _) ?_ (h.settled t hmem)
    hphase
  rintro key m ⟨rest, hrest, -⟩
  rw [hremaining] at hrest
  cases hrest

lemma commit (hstatus : t.status = .active) (hnone : ∀ u ∈ sys.txns, u.status.committing = false) :
    TxnSystem.Serializes initial
      { sys with txns := sys.txns.set id { t with status := .validating t.txn.readSet } } cs := by
  have halone : OnlyCommit sys.txns id := by
    intro j u hu hc
    rw [hnone u (List.mem_of_getElem? hu)] at hc
    cases hc
  refine h.setStatusQuiet ht (by simp [TxnState.commit?, hstatus]) rfl rfl ?_
  exact .validating
    { txn := List.getElem?_set_self (List.getElem?_eq_some_iff.mp ht).1
      status := rfl
      alone := halone.set _
      valid := fun read hread => .inl hread
      store := h.reflects hnone }

lemma conflict {reads : List (Bytes × ℕ)} (hstatus : t.status = .validating reads) :
    TxnSystem.Serializes initial
      { sys with txns := sys.txns.set id { t with status := .conflicted } } cs := by
  have hphase := h.phase.of_validating ht hstatus
  refine h.setStatusQuiet ht (by simp [TxnState.commit?, hstatus]) rfl rfl (.idle ?_ hphase.store)
  exact hphase.alone.forall_set (List.getElem?_eq_some_iff.mp ht).1 rfl

lemma validate {key : Bytes} {m : ℕ} {reads : List (Bytes × ℕ)}
    (hstatus : t.status = .validating ((key, m) :: reads))
    (hm : modRevisionOf (get sys.store key) = m) :
    TxnSystem.Serializes initial
      { sys with txns := sys.txns.set id { t with status := .validating reads } } cs := by
  have hphase := h.phase.of_validating ht hstatus
  have hvalid : ∀ read ∈ t.txn.readSet,
      read ∈ reads ∨ modRevisionOf (get sys.store read.1) = read.2 := by
    intro read hread
    rcases hphase.valid read hread with hleft | hvalid
    · rcases List.mem_cons.mp hleft with rfl | hleft
      · exact .inr hm
      · exact .inl hleft
    · exact .inr hvalid
  refine h.setStatusQuiet ht (by simp [TxnState.commit?, hstatus]) rfl rfl ?_
  exact .validating
    { txn := List.getElem?_set_self (List.getElem?_eq_some_iff.mp ht).1
      status := rfl
      alone := hphase.alone.set _
      valid := hvalid
      store := hphase.store }

/-- All reads are valid, and the commit takes its revision. -/
lemma allocate (hstatus : t.status = .validating []) (hrev : revision sys.store + 1 < 2 ^ 64) :
    TxnSystem.Serializes initial
      { store := (allocateRevision sys.store).2
        txns := sys.txns.set id { t with
          status := .writing (allocateRevision sys.store).1 t.txn.writeSet } } cs := by
  have hphase := h.phase.of_validating ht hstatus
  have hnext : revision (allocateRevision sys.store).2 = revision sys.store + 1 :=
    WellFormed.revision_allocateRevision hrev
  have hfst : (allocateRevision sys.store).1 = revision (allocateRevision sys.store).2 := by
    rw [allocateRevision_fst, revision_allocateRevision]
  have hle : ∀ c ∈ cs.map commitWrites, c.1 ≤ revision sys.store := by
    intro c hc
    obtain ⟨d, hd, rfl⟩ := List.mem_map.mp hc
    exact h.bounded d hd
  -- validation has compared every read with the values the committed transactions have produced
  have hreads : ReadsFrom (replay (get initial) (cs.map commitWrites)) t.history := by
    rw [← hphase.store.get_eq h.wf h.initial_le hle]
    refine (h.tracks t (List.mem_of_getElem? ht)).readsFrom h.wf fun read hread => ?_
    simpa using hphase.valid read hread
  have hwritten : ∀ key vv, version (allocateRevision sys.store).2 key
      (revision (allocateRevision sys.store).2) ≠ some vv := by
    intro key vv hvv
    rw [version_allocateRevision, hnext, h.wf.version_eq_none key (Nat.lt_succ_self _)] at hvv
    cases hvv
  have hset := h.setStatus ht (.writing (allocateRevision sys.store).1 t.txn.writeSet)
    (by simp [TxnState.commit?, hstatus]) (h.wf.allocateRevision hrev) (by omega)
    (fun _ _ _ _ hread => hread.allocateRevision) ?_ (by simp [TxnState.commit?]) ?_
  · simpa [TxnState.commit?] using hset
  · rintro key m hm ⟨rest, hrest, -⟩
    obtain ⟨rfl, -⟩ := Prod.mk.inj (Option.some.inj hrest)
    omega
  · have hstore := hphase.store.allocateRevision (revision (allocateRevision sys.store).2)
    simp only [TxnState.commit?, Option.toList_none, List.append_nil]
    exact .writing
      { txn := List.getElem?_set_self (List.getElem?_eq_some_iff.mp ht).1
        status := by rw [TxnStatus.remaining, hfst]
        alone := hphase.alone.set _
        create := by simp
        writeSet := (List.nil_append _).symm
        written := fun key vv hvv => absurd hvv (hwritten key vv)
        last := fun c hc => by
          have := h.bounded c hc
          simp only [hnext]
          omega
        pos := by
          simp only [hnext]
          omega
        reads := hreads
        store := hstore }

/-- The commit has looked up the create revision of its next write. -/
lemma lookup {rev : ℕ} {key value : Bytes} {writes : List (Bytes × Option Bytes)}
    (hstatus : t.status = .writing rev ((key, some value) :: writes)) :
    TxnSystem.Serializes initial
      { sys with txns := sys.txns.set id { t with
          status := .storing rev (readCreateRevision (get sys.store key) rev) key value writes } }
      cs := by
  have hremaining : t.status.remaining = some (rev, (key, some value) :: writes) := by
    rw [hstatus, TxnStatus.remaining]
  obtain ⟨rfl, done, hphase⟩ := h.phase.of_writing ht hremaining
  have hset := h.setStatus ht (.storing (revision sys.store)
      (readCreateRevision (get sys.store key) (revision sys.store)) key value writes)
    (by simp [TxnState.commit?, hstatus]) h.wf le_rfl (fun _ _ _ _ hread => hread) ?_
    (by simp [TxnState.commit?]) ?_
  · simpa [TxnState.commit?] using hset
  · rintro key' m - ⟨rest, hrest, hkey⟩
    exact ⟨rest, hremaining.trans hrest, hkey⟩
  · simp only [TxnState.commit?, Option.toList_none, List.append_nil]
    exact .writing { hphase with
      txn := List.getElem?_set_self (List.getElem?_eq_some_iff.mp ht).1
      status := rfl
      alone := hphase.alone.set _
      create := fun rev create key value writes hstoring => by
        cases hstoring
        rfl }

/-- The commit makes a write, perhaps its last. -/
lemma write {rev create : ℕ} {w : Bytes × Option Bytes} {rest : List (Bytes × Option Bytes)}
    (hstatus : t.status.remaining = some (rev, w :: rest))
    (hcreate : w.2.isSome → create = readCreateRevision (get sys.store w.1) rev) :
    ∃ cs', TxnSystem.Serializes initial
      { store := putVersioned sys.store w.1 (versionOf w.2 create rev) rev
        txns := sys.txns.set id { t with status := .next rev rest } } cs' := by
  obtain ⟨rfl, done, hphase⟩ := h.phase.of_writing ht hstatus
  have hlt := (List.getElem?_eq_some_iff.mp ht).1
  have hcommit : t.commit? = none := by
    cases hs : t.status <;> simp_all [TxnState.commit?, TxnStatus.remaining]
  have hstore := hphase.store.putVersioned h.wf hcreate
  refine ⟨_, h.setStatus ht (.next (revision sys.store) rest) hcommit
    (h.wf.putVersioned hphase.pos rfl) (revision_putVersioned ..).ge ?_ ?_ ?_ ?_⟩
  -- a settled read is of no key that is still to be written
  · intro key m value hsettled hread
    refine hread.putVersioned fun hm hkey => ?_
    exact hsettled t (List.mem_of_getElem? ht) ⟨_, hm ▸ hstatus, by simp [hkey]⟩
  · rintro key m - ⟨rest', hrest', hkey⟩
    refine ⟨w :: rest, ?_, ?_⟩ <;> cases rest <;> simp_all [TxnStatus.next, TxnStatus.remaining]
  · intro c hc
    cases rest with
    | nil =>
      obtain rfl := Option.some.inj hc
      exact ⟨hphase.last, (revision_putVersioned ..).ge, hphase.reads⟩
    | cons w' rest => cases hc
  · cases rest with
    | nil =>
      -- the last write: the store now reflects the whole commit
      refine .idle (hphase.alone.forall_set hlt rfl) ?_
      have hwrites : commitWrites (revision sys.store, t.history) =
          (revision sys.store, done ++ [w]) := by
        rw [commitWrites, ← (h.tracks t (List.mem_of_getElem? ht)).writeSet, hphase.writeSet]
      simpa [TxnState.commit?, TxnStatus.next, hwrites] using hstore
    | cons w' rest =>
      simp only [TxnState.commit?, TxnStatus.next, Option.toList_none, List.append_nil]
      exact .writing (hphase.putVersioned h.wf hcreate)

end

/-! ### Every step -/

lemma start : (sys.step .start).Serializes initial cs := by
  have htracks : TxnState.Tracks sys.store
      { txn := .start sys.store, status := .active, history := [] } :=
    { writeSet := rfl
      bounded := by simp [Transaction.start]
      own := by simp
      stored := by simp }
  have hphase : (sys.step .start).Phase initial cs := by
    refine h.phase.congr fun i u hu => ?_
    rw [getElem?_snoc_eq_some_iff, or_iff_left_iff_imp]
    rintro ⟨-, rfl⟩
    cases hu
  refine ⟨h.wf, h.initial_le, ?_, ?_, ?_, h.sorted, h.bounded, h.serial, hphase⟩
  · simp only [step, List.mem_append, List.mem_singleton]
    rintro u (hu | rfl)
    · exact h.tracks u hu
    · exact htracks
  · simp only [step, List.mem_append, List.mem_singleton]
    rintro u (hu | rfl) read hread v (hv | rfl)
    · exact h.settled u hu read hread v hv
    · rintro ⟨rest, hrest, -⟩
      cases hrest
    · cases hread
    · cases hread
  · rw [TxnSystem.step, committed, List.filterMap_append, List.filterMap_cons_none rfl,
      List.filterMap_nil, List.append_nil]
    exact h.perm

/-- A call of a transaction that is still open does nothing else. -/
lemma onActive {f : TxnState → TxnState} (hf : ∀ t, sys.txns[id]? = some t → t.status = .active →
      TxnSystem.Serializes initial { sys with txns := sys.txns.set id (f t) } cs) :
    (sys.onActive id f).Serializes initial cs := by
  rw [TxnSystem.onActive]
  split
  · next t ht =>
    split_ifs with hstatus
    · exact hf t ht hstatus
    · exact h
  · exact h

/-- A read of the store is settled: no commit will write over the version it has seen. -/
lemma settled_get {key : Bytes} (r : ℕ)
    (hrewrites : ∀ u ∈ sys.txns, u.rewrites key = false) :
    ∀ u ∈ sys.txns, ¬ u.Overwrites key (modRevisionOf (getAtRevision sys.store key r)) := by
  rintro u hu ⟨rest, hremaining, hkey⟩
  obtain ⟨id, ht⟩ := List.mem_iff_getElem?.mp hu
  obtain ⟨hrev, done, hphase⟩ := h.phase.of_writing ht hremaining
  rcases h.wf.readOf key r with ⟨hm, -⟩ | ⟨vv, hvv, -⟩
  · exact hphase.pos.ne' (hrev.symm.trans hm)
  · have hdone := hphase.written key vv (hrev ▸ hvv)
    have htake : u.txn.writeSet.take (u.txn.writeSet.length - rest.length) = done := by
      simp [hphase.writeSet]
    have := hrewrites u hu
    simp only [TxnState.rewrites, hremaining, Option.any_some, htake,
      decide_eq_false_iff_not] at this
    exact this ⟨hkey, hdone⟩

lemma get {key : Bytes} (hid : sys.CommitsAlone (.get id key)) :
    (sys.step (.get id key)).Serializes initial cs := by
  refine h.onActive fun t ht hstatus => ?_
  have hmem := List.mem_of_getElem? ht
  have htracks := h.tracks t hmem
  cases hwrite : lastWrite t.txn.writeSet key with
  | some value =>
    simp only [Transaction.get, hwrite]
    refine h.setActive ht hstatus (by simp [hstatus, TxnStatus.committing])
      (by simp [TxnState.commit?, hstatus]) (htracks.snoc_own hwrite) (h.settled t hmem)
  | none =>
    have hread := h.wf.readOf key t.txn.startRevision
    have hle : modRevisionOf (getAtRevision sys.store key t.txn.startRevision) ≤
        revision sys.store := by
      rcases hread with ⟨hm, -⟩ | ⟨vv, hvv, -⟩
      · simp [hm]
      · exact (h.wf.version hvv).2.1
    have hsettled := h.settled_get t.txn.startRevision (hid t ht hwrite)
    simp only [Transaction.get, hwrite]
    refine h.setActive ht hstatus (by simp [hstatus, TxnStatus.committing])
      (by simp [TxnState.commit?, hstatus]) (htracks.snoc_stored hwrite hle hread) ?_
    simp only [List.mem_append, List.mem_singleton]
    rintro read (hmem' | rfl)
    · exact h.settled t hmem read hmem'
    · exact hsettled

lemma buffer {op : TxnOp} {w : Bytes × Option Bytes} (hop : op.write = some w) :
    (sys.onActive id fun t =>
      { t with
        txn := { t.txn with writeSet := t.txn.writeSet ++ [w] }
        history := t.history ++ [op] }).Serializes initial cs := by
  refine h.onActive fun t ht hstatus => ?_
  have hmem := List.mem_of_getElem? ht
  exact h.setActive ht hstatus (by simp [hstatus, TxnStatus.committing])
    (by simp [TxnState.commit?, hstatus]) ((h.tracks t hmem).snoc_write hop) (h.settled t hmem)

lemma step_commit (hid : sys.CommitsAlone (.commit id)) :
    (sys.step (.commit id)).Serializes initial cs := by
  refine h.onActive fun t ht hstatus => ?_
  have hmem := List.mem_of_getElem? ht
  by_cases hwrites : t.txn.writeSet = []
  · simp only [hwrites, List.isEmpty_nil, if_true]
    exact h.setActive ht hstatus rfl rfl ((h.tracks t hmem).setStatus _) (h.settled t hmem)
  · simp only [List.isEmpty_iff, hwrites, if_false]
    exact h.commit ht hstatus (hid t ht hwrites)

lemma step_advance (hid : sys.CommitsAlone (.advance id)) :
    ∃ cs', (sys.step (.advance id)).Serializes initial cs' := by
  rw [step]
  cases ht : sys.txns[id]? with
  | none => exact ⟨cs, h⟩
  | some t =>
    have hsame : sys.txns.set id t = sys.txns := by
      obtain ⟨hid, rfl⟩ := List.getElem?_eq_some_iff.mp ht
      exact List.set_getElem_self hid
    simp only [TxnState.advance]
    split
    · next key readRevision reads hstatus =>
      split_ifs with hm
      · exact ⟨cs, h.conflict ht hstatus⟩
      · exact ⟨cs, h.validate ht hstatus (not_not.mp hm)⟩
    · next hstatus => exact ⟨cs, h.allocate ht hstatus (hid t ht hstatus)⟩
    · next hstatus => exact ⟨cs, h.lookup ht hstatus⟩
    · next key writes hstatus =>
      exact h.write ht (w := (key, none)) (by rw [hstatus, TxnStatus.remaining]) (by simp)
    · next rev create key value writes hstatus =>
      have hremaining : t.status.remaining = some (rev, (key, some value) :: writes) := by
        rw [hstatus, TxnStatus.remaining]
      obtain ⟨-, done, hphase⟩ := h.phase.of_writing ht hremaining
      exact h.write ht hremaining fun _ => hphase.create _ _ _ _ _ hstatus
    · simpa [hsame] using ⟨cs, h⟩

lemma step {e : TxnEvent} (he : sys.CommitsAlone e) :
    ∃ cs', (sys.step e).Serializes initial cs' := by
  cases e with
  | start => exact ⟨cs, h.start⟩
  | get id key => exact ⟨cs, h.get he⟩
  | put id key value => exact ⟨cs, h.buffer rfl⟩
  | delete id key => exact ⟨cs, h.buffer rfl⟩
  | commit id => exact ⟨cs, h.step_commit he⟩
  | advance id => exact h.step_advance he

end TxnSystem.Serializes

/-- In runs in which commits do not overlap and no read falls between two writes of its key by one
commit, the committed transactions behave as if executed one after another in the order of their
commit revisions. -/
theorem TxnSystem.serializable_of_commitsAlone {initial : σ} (hwf : WellFormed initial)
    {es : List TxnEvent}
    (h : Along TxnSystem.step TxnSystem.CommitsAlone (TxnSystem.new initial) es) :
    (run TxnSystem.step (TxnSystem.new initial) es).Serializable initial := by
  suffices ∃ cs, (run TxnSystem.step (TxnSystem.new initial) es).Serializes initial cs by
    obtain ⟨cs, hcs⟩ := this
    exact hcs.serializable
  refine run_invariant TxnSystem.step
    (fun es => ∃ cs, (run TxnSystem.step (TxnSystem.new initial) es).Serializes initial cs)
    ⟨[], .new hwf⟩ (fun es e _ hinv he => ?_) h
  obtain ⟨cs, hcs⟩ := hinv
  rw [run_snoc]
  exact hcs.step he

end

/-! ### Runs -/

namespace TxnRuns

def x : Bytes := [120]

/-- A store with one version of `x`. -/
def oneKey : VersionList where
  revision := 1
  records := [((x, 1), versionOf (some [48]) 1 1)]

lemma oneKey_wellFormed : SnapshotStore.WellFormed oneKey where
  revision_lt := by decide
  version {key r vv} h := by
    change oneKey.records.lookup (key, r) = some vv at h
    simp only [oneKey, List.lookup_cons, List.lookup_nil] at h
    split at h
    · next heq =>
      obtain ⟨rfl, rfl⟩ := Prod.mk.inj (eq_of_beq heq)
      cases h
      decide
    · cases h

/-- Two transactions that read `x` and then write it, one commit after the other. -/
def oneByOne : List TxnEvent :=
  [.start, .get 0 x, .put 0 x [49], .commit 0, .advance 0, .advance 0, .advance 0, .advance 0,
    .start, .get 1 x, .put 1 x [50], .commit 1, .advance 1, .advance 1, .advance 1, .advance 1]

/-- The same transactions, with both commits under way at once. -/
def overlapping : List TxnEvent :=
  [.start, .start, .get 0 x, .get 1 x, .put 0 x [49], .put 1 x [50], .commit 0, .commit 1,
    .advance 0, .advance 1, .advance 0, .advance 1, .advance 0, .advance 0, .advance 1, .advance 1]

end TxnRuns

open TxnRuns in
theorem TxnSystem.serializable_oneByOne :
    Along TxnSystem.step TxnSystem.CommitsAlone (TxnSystem.new oneKey) oneByOne ∧
      (run TxnSystem.step (TxnSystem.new oneKey) oneByOne).Serializable oneKey :=
  have h : Along TxnSystem.step TxnSystem.CommitsAlone (TxnSystem.new oneKey) oneByOne := by
    decide +kernel
  ⟨h, TxnSystem.serializable_of_commitsAlone oneKey_wellFormed h⟩

open TxnRuns in
/-- Two commits that validate before either writes both succeed, and the first update is lost. -/
theorem TxnSystem.overlapping_not_serializable :
    ¬ (run TxnSystem.step (TxnSystem.new oneKey) overlapping).Serializable oneKey := by
  have hcommitted : (run TxnSystem.step (TxnSystem.new oneKey) overlapping).committed =
      [(2, [.get x (some [48]), .put x [49]]), (3, [.get x (some [48]), .put x [50]])] := by
    decide +kernel
  rintro ⟨cs, hperm, hsorted, hserial, -⟩
  rw [hcommitted] at hperm
  obtain rfl := hperm.eq_of_pairwise (fun a b _ _ hab hba => absurd hba hab.not_gt) hsorted
    (by decide)
  -- the second transaction has to read what the first one wrote
  have := hserial.2.1 [] x (some [48]) [.put x [50]] rfl
  revert this
  decide

end Raftrust.Mvcc
