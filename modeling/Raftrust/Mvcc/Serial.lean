import Raftrust.Mvcc.Transaction

/-!
# Serial execution of transactions

What a serial execution of transactions is, on the values of the keys, and how a versioned store
reflects one: a read at a revision sees the commits up to it.
-/

namespace Raftrust.Mvcc

open Lib

/-! ### Stores -/

namespace SnapshotStore

variable {σ : Type} [SnapshotStore σ]

/-- Every version carries the revision it was written at, and the store has allocated it. -/
structure WellFormed (s : σ) : Prop where
  revision_lt : revision s < 2 ^ 64
  version : ∀ {key r vv}, version s key r = some vv → 0 < r ∧ r ≤ revision s ∧ vv.modRevision = r

lemma newest_cases (s : σ) (key : Bytes) (r : ℕ) :
    (∀ r' ≤ r, version s key r' = none) ∨
      ∃ r' vv, r' ≤ r ∧ version s key r' = some vv ∧
        ∀ r'', r' < r'' → r'' ≤ r → version s key r'' = none := by
  induction r with
  | zero =>
    cases h : version s key 0 with
    | none => exact .inl fun r' hr' => Nat.le_zero.mp hr' ▸ h
    | some vv => exact .inr ⟨0, vv, le_rfl, h, fun r'' hlt hle => by omega⟩
  | succ r ih =>
    cases h : version s key (r + 1) with
    | some vv => exact .inr ⟨r + 1, vv, le_rfl, h, fun r'' hlt hle => by omega⟩
    | none =>
      rcases ih with ih | ⟨r', vv, hle, hvv, hnewest⟩
      · refine .inl fun r' hr' => ?_
        rcases Nat.le_succ_iff.mp hr' with hr' | rfl
        · exact ih r' hr'
        · exact h
      · refine .inr ⟨r', vv, by omega, hvv, fun r'' hlt hr'' => ?_⟩
        rcases Nat.le_succ_iff.mp hr'' with hr'' | rfl
        · exact hnewest r'' hlt hr''
        · exact h

/-- A read depends on the versions up to its revision only. -/
lemma getAtRevision_congr {s s' : σ} {key : Bytes} {r : ℕ}
    (h : ∀ r' ≤ r, version s' key r' = version s key r') :
    getAtRevision s' key r = getAtRevision s key r := by
  rcases newest_cases s key r with hnone | ⟨r', vv, hle, hvv, hnewest⟩
  · rw [getAtRevision_of_none hnone,
      getAtRevision_of_none fun r' hr' => (h r' hr').trans (hnone r' hr')]
  · rw [getAtRevision_of_newest hvv hle hnewest,
      getAtRevision_of_newest ((h r' hle).trans hvv) hle fun r'' hlt hr'' =>
        (h r'' hr'').trans (hnewest r'' hlt hr'')]

lemma WellFormed.version_eq_none {s : σ} (hwf : WellFormed s) (key : Bytes) {r : ℕ}
    (h : revision s < r) : SnapshotStore.version s key r = none := by
  rw [Option.eq_none_iff_forall_ne_some]
  intro vv hvv
  have := (hwf.version hvv).2.1
  omega

/-- From the revision of the store on every read sees the same. -/
lemma WellFormed.getAtRevision_eq_get {s : σ} (hwf : WellFormed s) (key : Bytes) {r : ℕ}
    (h : revision s ≤ r) : getAtRevision s key r = get s key := by
  have hmax : revision s ≤ u64Max := by
    have := hwf.revision_lt
    simp only [u64Max]
    omega
  have hall : ∀ {r}, revision s ≤ r →
      getAtRevision s key r = getAtRevision s key (revision s) := by
    intro r hr
    rcases newest_cases s key (revision s) with hnone | ⟨r', vv, hle, hvv, hnewest⟩
    · rw [getAtRevision_of_none hnone, getAtRevision_of_none]
      intro r' _
      rcases Nat.lt_or_ge (revision s) r' with hr' | hr'
      · exact hwf.version_eq_none key hr'
      · exact hnone r' hr'
    · rw [getAtRevision_of_newest hvv hle hnewest, getAtRevision_of_newest hvv (hle.trans hr)]
      intro r'' hlt _
      rcases Nat.lt_or_ge (revision s) r'' with hr'' | hr''
      · exact hwf.version_eq_none key hr''
      · exact hnewest r'' hlt hr''
  exact (hall h).trans (hall hmax).symm

/-! ### What a read has seen -/

/-- Value `value` is what a version at revision `m` says, with `0` for no value. -/
def ReadOf (s : σ) (key : Bytes) (m : ℕ) (value : Option Bytes) : Prop :=
  (m = 0 ∧ value = none) ∨ ∃ vv, version s key m = some vv ∧ vv.value = value

lemma WellFormed.readOf {s : σ} (hwf : WellFormed s) (key : Bytes) (r : ℕ) :
    ReadOf s key (modRevisionOf (getAtRevision s key r))
      ((getAtRevision s key r).map (·.value)) := by
  rcases newest_cases s key r with hnone | ⟨r', vv, hle, hvv, hnewest⟩
  · rw [getAtRevision_of_none hnone]
    exact .inl ⟨rfl, rfl⟩
  · rw [getAtRevision_of_newest hvv hle hnewest]
    cases hvalue : vv.value with
    | none =>
      simp only [VersionedValue.toKeyValue, hvalue]
      exact .inl ⟨rfl, rfl⟩
    | some value =>
      simp only [VersionedValue.toKeyValue, hvalue, modRevisionOf, Option.map_some,
        Option.getD_some, (hwf.version hvv).2.2]
      exact .inr ⟨vv, hvv, hvalue⟩

lemma WellFormed.readOf_unique {s : σ} (hwf : WellFormed s) {key : Bytes} {m : ℕ}
    {value value' : Option Bytes} (h : ReadOf s key m value) (h' : ReadOf s key m value') :
    value = value' := by
  rcases h with ⟨hm, rfl⟩ | ⟨vv, hvv, rfl⟩ <;> rcases h' with ⟨hm', rfl⟩ | ⟨vv', hvv', rfl⟩
  · rfl
  · exact absurd hm (hwf.version hvv').1.ne'
  · exact absurd hm' (hwf.version hvv).1.ne'
  · rw [hvv, Option.some.injEq] at hvv'
    rw [hvv']

/-- A read that passes validation has seen the present value. -/
lemma WellFormed.readOf_current {s : σ} (hwf : WellFormed s) {key : Bytes} {m : ℕ}
    {value : Option Bytes} (h : ReadOf s key m value) (hm : modRevisionOf (get s key) = m) :
    value = (get s key).map (·.value) :=
  hwf.readOf_unique h (hm ▸ hwf.readOf key u64Max)

lemma ReadOf.allocateRevision {s : σ} {key : Bytes} {m : ℕ} {value : Option Bytes}
    (h : ReadOf s key m value) : ReadOf (allocateRevision s).2 key m value := by
  rcases h with h | ⟨vv, hvv, hvalue⟩
  · exact .inl h
  · exact .inr ⟨vv, by rw [version_allocateRevision, hvv], hvalue⟩

lemma ReadOf.putVersioned {s : σ} {key key' : Bytes} {m r : ℕ} {value : Option Bytes}
    {vv : VersionedValue} (h : ReadOf s key m value) (hne : r = m → key' ≠ key) :
    ReadOf (putVersioned s key' vv r) key m value := by
  rcases h with h | ⟨vv', hvv', hvalue⟩
  · exact .inl h
  · refine .inr ⟨vv', ?_, hvalue⟩
    rw [version_putVersioned, if_neg fun hk => hne hk.2 hk.1, hvv']

/-! ### Well-formedness is kept -/

lemma WellFormed.revision_allocateRevision {s : σ} (hlt : revision s + 1 < 2 ^ 64) :
    revision (allocateRevision s).2 = revision s + 1 := by
  rw [SnapshotStore.revision_allocateRevision, Nat.mod_eq_of_lt hlt]

lemma WellFormed.allocateRevision {s : σ} (hwf : WellFormed s) (hlt : revision s + 1 < 2 ^ 64) :
    WellFormed (allocateRevision s).2 where
  revision_lt := by rwa [revision_allocateRevision hlt]
  version {key r vv} h := by
    rw [version_allocateRevision] at h
    obtain ⟨hpos, hle, hmod⟩ := hwf.version h
    rw [revision_allocateRevision hlt]
    exact ⟨hpos, by omega, hmod⟩

lemma WellFormed.putVersioned {s : σ} (hwf : WellFormed s) (hpos : 0 < revision s) {key : Bytes}
    {vv : VersionedValue} (hvv : vv.modRevision = revision s) :
    WellFormed (putVersioned s key vv (revision s)) where
  revision_lt := by
    rw [revision_putVersioned]
    exact hwf.revision_lt
  version {key' r' vv'} h := by
    rw [revision_putVersioned]
    rw [version_putVersioned] at h
    split at h
    · next heq =>
      obtain rfl := Option.some.inj h
      exact ⟨heq.2 ▸ hpos, heq.2 ▸ le_rfl, heq.2 ▸ hvv⟩
    · exact hwf.version h

end SnapshotStore

/-! ### Serial execution -/

/-- The value of every key. -/
abbrev Snapshot := Bytes → Option KeyValue

/-- Write one key in a transaction that commits at `revision`. -/
def applyWrite (revision : ℕ) (snap : Snapshot) (write : Bytes × Option Bytes) : Snapshot :=
  fun key =>
    if key = write.1 then
      write.2.map fun value =>
        { key := key, value := value,
          createRevision := readCreateRevision (snap key) revision,
          modRevision := revision, leaseId := 0 }
    else snap key

/-- The values after the commits, each with its revision and its writes. -/
def replay (snap : Snapshot) (commits : List (ℕ × List (Bytes × Option Bytes))) : Snapshot :=
  commits.foldl (fun snap c => c.2.foldl (applyWrite c.1) snap) snap

def TxnOp.write : TxnOp → Option (Bytes × Option Bytes)
  | .get _ _ => none
  | .put key value => some (key, some value)
  | .delete key => some (key, none)

def writesOf (history : List TxnOp) : List (Bytes × Option Bytes) :=
  history.filterMap TxnOp.write

/-- A commit revision with the writes of the transaction. -/
def commitWrites (c : ℕ × List TxnOp) : ℕ × List (Bytes × Option Bytes) :=
  (c.1, writesOf c.2)

/-- Every read of the history returned the last write before it in the history, or else the value
in the snapshot. -/
def ReadsFrom (snap : Snapshot) (history : List TxnOp) : Prop :=
  ∀ pre key result post, history = pre ++ .get key result :: post →
    result = (lastWrite (writesOf pre) key).getD ((snap key).map (·.value))

/-- The transactions run one after another, each reading what those before it have written. -/
def Serial : Snapshot → List (ℕ × List TxnOp) → Prop
  | _, [] => True
  | snap, c :: cs => ReadsFrom snap c.2 ∧ Serial (replay snap [commitWrites c]) cs

lemma replay_append (snap : Snapshot) (cs cs' : List (ℕ × List (Bytes × Option Bytes))) :
    replay snap (cs ++ cs') = replay (replay snap cs) cs' := by
  simp [replay]

lemma serial_snoc (snap : Snapshot) (cs : List (ℕ × List TxnOp)) (c : ℕ × List TxnOp) :
    Serial snap (cs ++ [c]) ↔
      Serial snap cs ∧ ReadsFrom (replay snap (cs.map commitWrites)) c.2 := by
  induction cs generalizing snap with
  | nil => simp [Serial, replay]
  | cons d cs ih =>
    rw [List.cons_append, Serial, Serial, ih, List.map_cons, and_assoc]
    rfl

/-- Reads at `initial`'s revision and later ones see the commits up to their revision. -/
def Reflects {σ : Type} [SnapshotStore σ] (initial : σ)
    (commits : List (ℕ × List (Bytes × Option Bytes))) (s : σ) : Prop :=
  ∀ key r, SnapshotStore.revision initial ≤ r →
    SnapshotStore.getAtRevision s key r =
      replay (SnapshotStore.get initial) (commits.filter (·.1 ≤ r)) key

namespace Reflects

open SnapshotStore

variable {σ : Type} [SnapshotStore σ] {initial s : σ}
  {commits : List (ℕ × List (Bytes × Option Bytes))}

lemma nil (hwf : WellFormed initial) : Reflects initial [] initial :=
  fun key _ hr => hwf.getAtRevision_eq_get key hr

/-- The present values are those after all commits. -/
lemma get_eq (h : Reflects initial commits s) (hwf : WellFormed s)
    (hinitial : revision initial ≤ revision s) (hle : ∀ c ∈ commits, c.1 ≤ revision s) :
    get s = replay (get initial) commits := by
  funext key
  have hfilter : commits.filter (fun c => decide (c.1 ≤ revision s)) = commits := by
    rw [List.filter_eq_self]
    exact fun c hc => decide_eq_true (hle c hc)
  rw [← hwf.getAtRevision_eq_get key le_rfl, h key _ hinitial, hfilter]

lemma allocateRevision (h : Reflects initial commits s) (rev : ℕ) :
    Reflects initial (commits ++ [(rev, [])]) (allocateRevision s).2 := by
  intro key r hr
  have hsame : getAtRevision (SnapshotStore.allocateRevision s).2 key r = getAtRevision s key r :=
    getAtRevision_congr fun r' _ => by rw [version_allocateRevision]
  rw [hsame, h key r hr, List.filter_append, replay_append]
  by_cases hrev : rev ≤ r
  · simp [hrev, replay]
  · simp [hrev, replay]

lemma putVersioned {write : Bytes × Option Bytes} {done : List (Bytes × Option Bytes)}
    {createRevision : ℕ}
    (h : Reflects initial (commits ++ [(revision s, done)]) s) (hwf : WellFormed s)
    (hcreate : write.2.isSome →
      createRevision = readCreateRevision (get s write.1) (revision s)) :
    Reflects initial (commits ++ [(revision s, done ++ [write])])
      (putVersioned s write.1 (versionOf write.2 createRevision (revision s)) (revision s)) := by
  intro key r hr
  have hold := h key r hr
  rw [List.filter_append, replay_append] at hold ⊢
  by_cases hrev : revision s ≤ r
  · -- the last commit is seen: its new write decides its own key and no other
    have hlast : ∀ ws : List (Bytes × Option Bytes),
        [(revision s, ws)].filter (fun c => decide (c.1 ≤ r)) = [(revision s, ws)] := by
      simp [hrev]
    rw [hlast] at hold ⊢
    simp only [replay, List.foldl_cons, List.foldl_nil, List.foldl_append] at hold ⊢
    by_cases hkey : key = write.1
    · subst hkey
      have hvv : version (SnapshotStore.putVersioned s write.1
          (versionOf write.2 createRevision (revision s)) (revision s)) write.1 (revision s) =
          some (versionOf write.2 createRevision (revision s)) := by
        rw [version_putVersioned, if_pos ⟨rfl, rfl⟩]
      rw [getAtRevision_of_newest hvv hrev, applyWrite, if_pos rfl, ← hold,
        hwf.getAtRevision_eq_get _ hrev]
      · cases hvalue : write.2 with
        | none => rfl
        | some value =>
          rw [hcreate (by simp [hvalue])]
          rfl
      · intro r'' hlt _
        rw [version_putVersioned, if_neg fun heq => hlt.ne heq.2]
        exact hwf.version_eq_none _ hlt
    · rw [applyWrite, if_neg hkey, ← hold]
      exact getAtRevision_congr fun r' _ => by
        rw [version_putVersioned, if_neg fun heq => hkey heq.1.symm]
  · have hlast : ∀ ws : List (Bytes × Option Bytes),
        [(revision s, ws)].filter (fun c => decide (c.1 ≤ r)) = [] := by
      simp [hrev]
    rw [hlast] at hold ⊢
    rw [← hold]
    exact getAtRevision_congr fun r' hr' => by
      rw [version_putVersioned, if_neg]
      exact fun heq => hrev (heq.2.trans_le hr')

end Reflects

end Raftrust.Mvcc
