import Mathlib.Data.List.MinMax
import Raftrust.Lib.History
import Raftrust.Mvcc.Content

/-!
# Applying the same calls again

After a restart the counter of the store starts at zero while the engine still holds all versions.
The calls are then made again, and each of them rewrites its own version. A put looks up the latest
version of its key, which may by now be a later one than its own, and takes over the create
revision it finds there.
-/

namespace Raftrust.Mvcc

open Lib Storage

namespace MvccStore

/-! ### What a scan meets first -/

/-- The call whose version comes first in the range of a key, with its index. -/
def found (ops : List Op) (key : Bytes) : Option (Op × ℕ) :=
  (ops.zipIdx.filter fun x => InScan key (encodeKey x.1.key (x.2 + 1))).argmin
    fun x => encodeKey x.1.key (x.2 + 1)

section

variable {ops : List Op} {key : Bytes} {op : Op} {i : ℕ}

lemma mem_candidates : (op, i) ∈ ops.zipIdx.filter
      (fun x => InScan key (encodeKey x.1.key (x.2 + 1))) ↔
    ops[i]? = some op ∧ InScan key (encodeKey op.key (i + 1)) := by
  rw [List.mem_filter, List.mk_mem_zipIdx_iff_getElem?, decide_eq_true_iff]

lemma not_inScan_of_found_eq_none (h : found ops key = none) (hop : ops[i]? = some op) :
    ¬ InScan key (encodeKey op.key (i + 1)) := by
  intro hin
  have hmem := mem_candidates.mpr ⟨hop, hin⟩
  rw [List.argmin_eq_none.mp h] at hmem
  cases hmem

lemma getElem?_of_found (h : found ops key = some (op, i)) : ops[i]? = some op :=
  (mem_candidates.mp (List.argmin_mem h)).1

lemma inScan_of_found (h : found ops key = some (op, i)) :
    InScan key (encodeKey op.key (i + 1)) :=
  (mem_candidates.mp (List.argmin_mem h)).2

lemma le_of_found (h : found ops key = some (op, i)) {op' : Op} {j : ℕ} (hop : ops[j]? = some op')
    (hin : InScan key (encodeKey op'.key (j + 1))) :
    encodeKey op.key (i + 1) ≤ encodeKey op'.key (j + 1) :=
  not_lt.mp (List.not_lt_of_mem_argmin (mem_candidates.mpr ⟨hop, hin⟩) h)

lemma lt_length_of_found (h : found ops key = some (op, i)) : i < ops.length :=
  (List.getElem?_eq_some_iff.mp (getElem?_of_found h)).1

lemma found_eq_some (hlen : ops.length < 2 ^ 64) (hop : ops[i]? = some op)
    (hin : InScan key (encodeKey op.key (i + 1)))
    (hleast : ∀ op' j, ops[j]? = some op' → InScan key (encodeKey op'.key (j + 1)) →
      encodeKey op.key (i + 1) ≤ encodeKey op'.key (j + 1)) : found ops key = some (op, i) := by
  have hlt : ∀ {j op'}, ops[j]? = some op' → j + 1 < 2 ^ 64 := fun hop' =>
    (Nat.succ_le_of_lt (List.getElem?_eq_some_iff.mp hop').1).trans_lt hlen
  refine argmin_eq_some (mem_candidates.mpr ⟨hop, hin⟩) ?_ ?_ _
  · rintro ⟨op', j⟩ hj
    exact hleast op' j (mem_candidates.mp hj).1 (mem_candidates.mp hj).2
  · rintro ⟨op', j⟩ hj heq
    have hop' := (mem_candidates.mp hj).1
    obtain ⟨-, hij⟩ := encodeKey_inj (hlt hop) (hlt hop') heq
    obtain rfl := Nat.succ.inj hij
    rw [Option.some.inj (hop.symm.trans hop')]

/-- What comes first among all calls comes first among those up to it. -/
lemma found_take (hlen : ops.length < 2 ^ 64) (h : found ops key = some (op, i)) {m : ℕ}
    (hm : i < m) : found (ops.take m) key = some (op, i) := by
  refine found_eq_some ?_ ?_ (inScan_of_found h) fun op' j hop' hin => ?_
  · exact (List.length_take_le' m ops).trans_lt hlen
  · rw [List.getElem?_take_of_lt hm]
    exact getElem?_of_found h
  · exact le_of_found h (getElem?_of_isPrefix (List.take_prefix m ops) hop') hin

lemma found_take_of_none (h : found ops key = none) (m : ℕ) : found (ops.take m) key = none := by
  cases h' : found (ops.take m) key with
  | none => rfl
  | some x =>
    have hop := getElem?_of_isPrefix (List.take_prefix m ops) (getElem?_of_found h')
    exact absurd (inScan_of_found h') (not_inScan_of_found_eq_none h hop)

end

/-! ### The first put of a chain -/

/-- What a put records that finds `latest`: the value of a put that is found, or its own. -/
def createdBy (created : ℕ → ℕ) (latest : Option (Op × ℕ)) (own : ℕ) : ℕ :=
  match latest with
  | some (op, i) => if op.isPut then created i else own
  | none => own

/-- Follow a put to the one it continues, and so on. -/
def origin (ops : List Op) : ℕ → ℕ → ℕ
  | 0, i => i
  | fuel + 1, i =>
    match ops[i]? with
    | some op => createdBy (origin ops fuel) (found (ops.take i) op.key) i
    | none => i

/-- The first put of the chain of the put at index `i`: a put that finds another one continues its
chain, and a put that finds nothing or a delete starts a chain. -/
def firstOfChain (ops : List Op) (i : ℕ) : ℕ :=
  origin ops (i + 1) i

lemma createdBy_congr {created created' : ℕ → ℕ} {latest : Option (Op × ℕ)} {own : ℕ}
    (h : ∀ op i, latest = some (op, i) → op.isPut → created i = created' i) :
    createdBy created latest own = createdBy created' latest own := by
  rcases latest with _ | ⟨op, i⟩
  · rfl
  · simp only [createdBy]
    split
    · next hput => exact h op i rfl hput
    · rfl

lemma lt_of_found_take {ops : List Op} {key : Bytes} {op : Op} {i m : ℕ}
    (h : found (ops.take m) key = some (op, i)) : i < m :=
  (lt_length_of_found h).trans_le (List.length_take_le m ops)

lemma origin_eq_of_lt (ops : List Op) {fuel i : ℕ} (h : i < fuel) :
    origin ops fuel i = firstOfChain ops i := by
  induction fuel using Nat.strong_induction_on generalizing i with
  | _ fuel ih =>
    cases fuel with
    | zero => exact absurd h (Nat.not_lt_zero i)
    | succ fuel =>
      rw [firstOfChain, origin, origin]
      cases hop : ops[i]? with
      | none => rfl
      | some op =>
        refine createdBy_congr fun op' j hj _ => ?_
        have hji := lt_of_found_take hj
        rw [ih fuel (Nat.lt_succ_self _) (by omega)]
        rcases Nat.lt_succ_iff_lt_or_eq.mp h with hlt | rfl
        · exact (ih i (by omega) hji).symm
        · exact (ih i (Nat.lt_succ_self _) hji).symm

lemma firstOfChain_eq {ops : List Op} {i : ℕ} {op : Op} (hop : ops[i]? = some op) :
    firstOfChain ops i = createdBy (firstOfChain ops) (found (ops.take i) op.key) i := by
  rw [firstOfChain, origin, hop]
  exact createdBy_congr fun op' j hj _ => origin_eq_of_lt ops (lt_of_found_take hj)

/-! ### Reads and calls in terms of what is found -/

/-- The version at an index. -/
def versionAt (writes : List Write) (i : ℕ) : Option VersionedValue :=
  writes[i]?.map (·.version (i + 1))

def createdAt (writes : List Write) (i : ℕ) : ℕ :=
  (writes[i]?.map (·.createRevision)).getD 0

lemma createdAt_of_getElem? {writes : List Write} {i : ℕ} {w : Write} (h : writes[i]? = some w) :
    createdAt writes i = w.createRevision := by
  rw [createdAt, h]
  rfl

lemma createRevisionOf_found {writes : List Write} {latest : Option (Op × ℕ)}
    (h : ∀ op i, latest = some (op, i) → (writes.map Write.op)[i]? = some op) (revision : ℕ) :
    createRevisionOf (latest.bind fun x => versionAt writes x.2) revision =
      createdBy (createdAt writes) latest revision := by
  rcases latest with _ | ⟨op, i⟩
  · rfl
  · have hop := h op i rfl
    rw [List.getElem?_map, Option.map_eq_some_iff] at hop
    obtain ⟨w, hw, rfl⟩ := hop
    simp only [Option.bind_some, versionAt, createdAt, createdBy, hw, Option.map_some,
      Option.getD_some, createRevisionOf, Write.version]
    cases w.op <;> rfl

variable {σ : Type} [StorageEngine σ] {s : MvccStore σ} {writes : List Write}

/-- A read of some of the versions in the range of a key meets the first of them that is not too
new. -/
lemma Holds.firstVisible_filter (h : Holds s writes) {key : Bytes} {L : List (Write × ℕ)}
    (hsorted : L.Pairwise fun x y => x.1.internalKey (x.2 + 1) < y.1.internalKey (y.2 + 1))
    (hmem : ∀ w i, (w, i) ∈ L ↔ writes[i]? = some w ∧ InScan key (w.internalKey (i + 1)))
    (revision : ℕ) (p : ℕ → Prop) [DecidablePred p] :
    firstVisible revision ((L.filter fun x => p x.2).map fun x => x.1.entry x.2) =
      .ok (((((writes.map Write.op).take revision).zipIdx.filter fun x =>
        InScan key (encodeKey x.1.key (x.2 + 1)) ∧ p x.2).argmin
          fun x => encodeKey x.1.key (x.2 + 1)).bind fun x => versionAt writes x.2) := by
  obtain ⟨M, hM⟩ : ∃ M, M = (L.filter fun x => p x.2).map fun x => (x.1.op, x.2) := ⟨_, rfl⟩
  have hMsorted : M.Pairwise fun x y =>
      encodeKey x.1.key (x.2 + 1) < encodeKey y.1.key (y.2 + 1) := by
    rw [hM, List.pairwise_map]
    exact hsorted.filter _
  -- the entries of the scan that are not too new are the candidates of the minimum
  have hcandidates : ∀ y, y ∈ (((writes.map Write.op).take revision).zipIdx.filter fun x =>
      InScan key (encodeKey x.1.key (x.2 + 1)) ∧ p x.2) ↔
        y ∈ M ∧ (decide (y.2 + 1 ≤ revision)) = true := by
    rintro ⟨op, i⟩
    have htake : ((writes.map Write.op).take revision)[i]? = some op ↔
        (∃ w, writes[i]? = some w ∧ w.op = op) ∧ i + 1 ≤ revision := by
      rw [List.getElem?_take, List.getElem?_map]
      by_cases hi : i < revision
      · simp [hi, Nat.succ_le_iff.mpr hi]
      · rw [if_neg hi]
        exact iff_of_false (by simp) fun h => hi h.2
    rw [hM, List.mem_filter, List.mk_mem_zipIdx_iff_getElem?, htake]
    simp only [List.mem_map, List.mem_filter, decide_eq_true_eq]
    constructor
    · rintro ⟨⟨⟨w, hw, rfl⟩, hle⟩, hin, hp⟩
      exact ⟨⟨(w, i), ⟨(hmem w i).mpr ⟨hw, hin⟩, hp⟩, rfl⟩, hle⟩
    · rintro ⟨⟨⟨w, j⟩, ⟨hwL, hp⟩, heq⟩, hle⟩
      obtain ⟨rfl, rfl⟩ := Prod.mk.inj heq
      obtain ⟨hw, hin⟩ := (hmem w j).mp hwL
      exact ⟨⟨⟨w, hw, rfl⟩, hle⟩, hin, hp⟩
  have hwrites : ∀ x ∈ L.filter (fun x => p x.2), writes[x.2]? = some x.1 := fun x hx =>
    ((hmem x.1 x.2).mp (List.mem_of_mem_filter hx)).1
  rw [h.firstVisible_map hwrites, ← find?_eq_argmin hMsorted hcandidates, hM, List.find?_map]
  dsimp only [Function.comp_def]
  cases hfind : (L.filter fun x => p x.2).find? fun x => x.2 + 1 ≤ revision with
  | none => rfl
  | some x => simp [versionAt, hwrites x (List.mem_of_find?_eq_some hfind)]

/-- A read meets what is found among the calls up to its revision. -/
lemma Holds.firstVisible_found (h : Holds s writes) (key : Bytes) [ScansKey σ key] (revision : ℕ) :
    firstVisible revision (s.scanKey key) =
      .ok ((found ((writes.map Write.op).take revision) key).bind fun x =>
        versionAt writes x.2) := by
  obtain ⟨L, hscan, hsorted, hmem⟩ := h.exists_scan key
  simpa [hscan, found] using h.firstVisible_filter hsorted hmem revision fun _ => True

/-! ### The first application -/

/-- Every put has recorded the create revision of what it found among the calls before it. -/
def Created (writes : List Write) : Prop :=
  ∀ (i : ℕ) (w : Write), writes[i]? = some w → w.op.isPut →
    w.createRevision =
      createdBy (createdAt writes) (found ((writes.map Write.op).take i) w.op.key) (i + 1)

lemma Created.snoc (hcreated : Created writes) {w : Write}
    (hw : w.op.isPut → w.createRevision =
      createdBy (createdAt writes) (found (writes.map Write.op) w.op.key) (writes.length + 1)) :
    Created (writes ++ [w]) := by
  have hold : ∀ {i : ℕ} {key : Bytes}, i ≤ writes.length →
      createdBy (createdAt (writes ++ [w])) (found ((writes.map Write.op).take i) key) (i + 1) =
        createdBy (createdAt writes) (found ((writes.map Write.op).take i) key) (i + 1) := by
    intro i key hi
    refine createdBy_congr fun op j hj _ => ?_
    rw [createdAt, createdAt, List.getElem?_append_left ((lt_of_found_take hj).trans_le hi)]
  intro i x hx hput
  rw [List.map_append]
  rcases getElem?_snoc_eq_some_iff.mp hx with hx' | ⟨rfl, rfl⟩
  · have hi := (List.getElem?_eq_some_iff.mp hx').1
    rw [List.take_append_of_le_length (by simpa using hi.le), hold hi.le]
    exact hcreated i x hx' hput
  · have htake : (writes.map Write.op).take writes.length = writes.map Write.op :=
      List.take_of_length_le (by simp)
    rw [List.take_append_of_le_length (by simp), hold le_rfl, htake]
    exact hw hput

variable (σ) in
/-- Every history of calls that fit succeeds. -/
lemma exists_run_created {ops : List Op} (hkeys : ∀ op ∈ ops, ScansKey σ op.key)
    (hfits : ∀ op ∈ ops, op.Fits) (hlen : ops.length < 2 ^ 64) :
    ∃ (s : MvccStore σ) (writes : List Write), run σ ops = .ok s ∧ Holds s writes ∧
      writes.map Write.op = ops ∧ Created writes := by
  refine exists_run_of σ (by rintro i w ⟨⟩) (fun s writes w latest _ hholds hcreated hlatest
    hcreate => hcreated.snoc fun hput => ?_) hkeys hfits hlen
  have hfound := hholds.firstVisible_found w.op.key writes.length
  rw [List.take_of_length_le (by simp)] at hfound
  obtain rfl := Except.ok.inj (hlatest.symm.trans hfound)
  rw [hcreate hput]
  exact createRevisionOf_found (fun op i h => getElem?_of_found h) _

/-- What is recorded is the revision of the first put of the chain. -/
lemma Created.createRevision_eq (hcreated : Created writes) {i : ℕ} {w : Write}
    (hw : writes[i]? = some w) (hput : w.op.isPut) :
    w.createRevision = firstOfChain (writes.map Write.op) i + 1 := by
  induction i using Nat.strong_induction_on generalizing w with
  | _ i ih =>
    have hop : (writes.map Write.op)[i]? = some w.op := by simp [hw]
    rw [hcreated i w hw hput, firstOfChain_eq hop]
    cases hfound : found ((writes.map Write.op).take i) w.op.key with
    | none => rfl
    | some x =>
      obtain ⟨op, j⟩ := x
      have hj := getElem?_of_isPrefix (List.take_prefix i _) (getElem?_of_found hfound)
      rw [List.getElem?_map, Option.map_eq_some_iff] at hj
      obtain ⟨x, hx, rfl⟩ := hj
      simp only [createdBy]
      split
      · next hput' =>
        rw [createdAt_of_getElem? hx]
        exact ih j (lt_of_found_take hfound) hx hput'
      · rfl

/-! ### The second application -/

/-- The call at an index is made again and rewrites its version. -/
def rewrite (writes : List Write) (i : ℕ) : List Write :=
  match writes[i]? with
  | some w => writes.set i
      ⟨w.op, createdBy (createdAt writes) (found (writes.map Write.op) w.op.key) (i + 1)⟩
  | none => writes

/-- The first `m` calls have been made again. -/
def rewritten (writes : List Write) (m : ℕ) : List Write :=
  (List.range m).foldl rewrite writes

lemma rewritten_succ (writes : List Write) (m : ℕ) :
    rewritten writes (m + 1) = rewrite (rewritten writes m) m := by
  rw [rewritten, List.range_succ, List.foldl_append]
  rfl

lemma getElem?_rewrite_of_ne {i j : ℕ} (h : j ≠ i) : (rewrite writes i)[j]? = writes[j]? := by
  rw [rewrite]
  split
  · rw [List.getElem?_set_ne h.symm]
  · rfl

lemma getElem?_rewrite_self {i : ℕ} {w : Write} (h : writes[i]? = some w) :
    (rewrite writes i)[i]? = some
      ⟨w.op, createdBy (createdAt writes) (found (writes.map Write.op) w.op.key) (i + 1)⟩ := by
  have hi := (List.getElem?_eq_some_iff.mp h).1
  rw [rewrite, h]
  exact List.getElem?_set_self hi

@[simp] lemma map_op_rewrite (writes : List Write) (i : ℕ) :
    (rewrite writes i).map Write.op = writes.map Write.op := by
  apply List.ext_getElem?
  intro j
  rw [List.getElem?_map, List.getElem?_map]
  rcases eq_or_ne j i with rfl | hne
  · cases hw : writes[j]? with
    | none => rw [rewrite, hw, hw]
    | some w => rw [getElem?_rewrite_self hw]; rfl
  · rw [getElem?_rewrite_of_ne hne]

@[simp] lemma map_op_rewritten (writes : List Write) (m : ℕ) :
    (rewritten writes m).map Write.op = writes.map Write.op := by
  induction m with
  | zero => rfl
  | succ m ih => rw [rewritten_succ, map_op_rewrite, ih]

/-- Calls that are still to come have their old versions. -/
lemma getElem?_rewritten_of_le {m j : ℕ} (h : m ≤ j) : (rewritten writes m)[j]? = writes[j]? := by
  induction m with
  | zero => rfl
  | succ m ih => rw [rewritten_succ, getElem?_rewrite_of_ne (by omega), ih (by omega)]

/-- Calls that have been made have their new versions. -/
lemma getElem?_rewritten_of_lt {m n j : ℕ} (h : j < m) (hmn : m ≤ n) :
    (rewritten writes n)[j]? = (rewritten writes m)[j]? := by
  induction n, hmn using Nat.le_induction with
  | base => rfl
  | succ n hmn ih => rw [rewritten_succ, getElem?_rewrite_of_ne (by omega), ih]

/-- What a put has recorded after all calls have been made again. -/
lemma createdAt_rewritten {i : ℕ} {w : Write} (hw : writes[i]? = some w) :
    createdAt (rewritten writes writes.length) i =
      createdBy
        (fun j => if j < i then createdAt (rewritten writes writes.length) j
          else createdAt writes j)
        (found (writes.map Write.op) w.op.key) (i + 1) := by
  have hi := (List.getElem?_eq_some_iff.mp hw).1
  have hw' : (rewritten writes i)[i]? = some w := by rw [getElem?_rewritten_of_le le_rfl, hw]
  have hself := getElem?_rewrite_self hw'
  rw [← rewritten_succ, ← getElem?_rewritten_of_lt (Nat.lt_succ_self i) hi] at hself
  rw [createdAt_of_getElem? hself, map_op_rewritten]
  refine createdBy_congr fun op j _ _ => ?_
  split
  · next hji => rw [createdAt, createdAt, getElem?_rewritten_of_lt hji hi.le]
  · next hji => rw [createdAt, createdAt, getElem?_rewritten_of_le (not_lt.mp hji)]

/-- The engine after a version has been replaced by one of the same call. -/
lemma Holds.replace (h : Holds s writes) {i : ℕ} {w : Write}
    (hop : (writes.map Write.op)[i]? = some w.op) (hfits : (w.version (i + 1)).Fits) :
    Holds ⟨StorageEngine.put s.engine (w.entry i).1 (w.entry i).2, s.currentRevision⟩
      (writes.set i w) := by
  obtain ⟨x, hx, hxop⟩ : ∃ x, writes[i]? = some x ∧ x.op = w.op := by simpa using hop
  have hi := (List.getElem?_eq_some_iff.mp hx).1
  have hkey : x.internalKey (i + 1) = w.internalKey (i + 1) := by
    rw [Write.internalKey, hxop, Write.internalKey]
  have hget : ∀ {j y}, (writes.set i w)[j]? = some y ↔
      (j = i ∧ y = w) ∨ (j ≠ i ∧ writes[j]? = some y) := by
    intro j y
    rcases eq_or_ne j i with rfl | hne
    · simp [List.getElem?_set_self hi, eq_comm]
    · simp [List.getElem?_set_ne hne.symm, hne]
  refine ⟨by simpa using h.revision_eq, by simpa using h.length_lt, fun j y hy => ?_,
    fun e => ?_⟩
  · rcases hget.mp hy with ⟨rfl, rfl⟩ | ⟨-, hold⟩
    · exact hfits
    · exact h.fits j y hold
  · rw [StorageEngine.get_put]
    split
    -- under this internal key there was the old version only
    · next heq =>
      constructor
      · intro hvalue
        exact ⟨i, w, hget.mpr (.inl ⟨rfl, rfl⟩), Prod.ext heq (Option.some.inj hvalue)⟩
      · rintro ⟨j, y, hy, rfl⟩
        rcases hget.mp hy with ⟨rfl, rfl⟩ | ⟨hne, hold⟩
        · rfl
        · exact absurd (h.eq_of_internalKey_eq hold hx (heq.symm.trans hkey.symm)).1 hne
    · next hne =>
      rw [h.get_iff e]
      constructor
      · rintro ⟨j, y, hy, rfl⟩
        refine ⟨j, y, hget.mpr (.inr ⟨?_, hy⟩), rfl⟩
        rintro rfl
        obtain rfl := Option.some.inj (hx.symm.trans hy)
        exact hne hkey.symm
      · rintro ⟨j, y, hy, rfl⟩
        rcases hget.mp hy with ⟨rfl, rfl⟩ | ⟨-, hold⟩
        · exact absurd rfl hne
        · exact ⟨j, y, hold, rfl⟩

/-- A call that is made again, with the counter back at its index. -/
lemma Holds.execute_again (h : Holds s writes) {i : ℕ} {op : Op} [ScansKey σ op.key]
    (hop : (writes.map Write.op)[i]? = some op) (hfits : op.Fits) :
    ∃ s' : MvccStore σ, MvccStore.execute ⟨s.engine, i⟩ op = .ok s' ∧ s'.currentRevision = i + 1 ∧
      Holds ⟨s'.engine, s.currentRevision⟩ (rewrite writes i) := by
  obtain ⟨x, hx, rfl⟩ : ∃ x, writes[i]? = some x ∧ x.op = op := by simpa using hop
  have hlt := h.index_lt hx
  have hnext : nextRevision (⟨s.engine, i⟩ : MvccStore σ) = (i + 1, ⟨s.engine, i + 1⟩) := by
    rw [nextRevision, Nat.mod_eq_of_lt hlt]
  obtain ⟨latest, hlatest, hvisible⟩ := h.exists_latest x.op.key
  have hfound := h.firstVisible_found x.op.key writes.length
  rw [List.take_of_length_le (by simp)] at hfound
  -- the lookup sees all versions, those of later calls included
  have hcreate : createRevisionOf (latest.map Prod.snd) (i + 1) =
      createdBy (createdAt writes) (found (writes.map Write.op) x.op.key) (i + 1) := by
    rw [Except.ok.inj (hvisible.symm.trans hfound)]
    exact createRevisionOf_found (fun op i h => getElem?_of_found h) _
  have hbound := h.createRevisionOf_lt hvisible hlt
  rw [rewrite, hx]
  dsimp only
  rw [← hcreate]
  obtain ⟨op, createRevision⟩ := x
  cases op with
  | put key value leaseId ttlSeconds =>
    have hholds := h.replace
      (w := ⟨.put key value leaseId ttlSeconds, createRevisionOf (latest.map Prod.snd) (i + 1)⟩)
      hop ⟨by rintro _ ⟨rfl⟩; exact hfits, hbound, hlt⟩
    have hscan : getLatestVersionInfo ⟨s.engine, i + 1⟩ key = .ok latest := hlatest
    refine ⟨⟨_, i + 1⟩, ?_, rfl, hholds⟩
    simp only [MvccStore.execute, putWithOptions, hnext, hscan]
    cases latest <;> rfl
  | delete key =>
    have hholds := h.replace
      (w := ⟨.delete key, createRevisionOf (latest.map Prod.snd) (i + 1)⟩)
      hop ⟨by rintro _ ⟨⟩, by simp [Write.version], hlt⟩
    have hscan : getLatestVersionInfo (⟨s.engine, i⟩ : MvccStore σ) key = .ok latest := hlatest
    refine ⟨⟨_, i + 1⟩, ?_, rfl, hholds⟩
    simp only [MvccStore.execute, delete, hnext, hscan]
    rfl

lemma Holds.exists_replay (h : Holds s writes)
    (hkeys : ∀ op ∈ writes.map Write.op, ScansKey σ op.key)
    (hfits : ∀ op ∈ writes.map Write.op, op.Fits) {m : ℕ} (hm : m ≤ writes.length) :
    ∃ s' : MvccStore σ, ((writes.map Write.op).take m).foldlM MvccStore.execute (new s.engine) =
        .ok s' ∧ s'.currentRevision = m ∧
      Holds ⟨s'.engine, s.currentRevision⟩ (rewritten writes m) := by
  induction m with
  | zero => exact ⟨_, rfl, rfl, h⟩
  | succ m ih =>
    obtain ⟨s₁, hrun, hrevision, hholds⟩ := ih (Nat.le_of_succ_le hm)
    obtain ⟨op, hop⟩ : ∃ op, (writes.map Write.op)[m]? = some op :=
      ⟨_, List.getElem?_eq_getElem (by rwa [List.length_map])⟩
    have := hkeys op (List.mem_of_getElem? hop)
    -- the versions rewritten so far are of the same calls
    obtain ⟨s₂, hexec, hrevision', hholds'⟩ :=
      hholds.execute_again (by rwa [map_op_rewritten]) (hfits op (List.mem_of_getElem? hop))
    refine ⟨s₂, ?_, hrevision', by rwa [rewritten_succ]⟩
    rw [List.take_add_one, hop, Option.toList_some, List.foldlM_append]
    refine bind_eq_ok_iff.mpr ⟨s₁, hrun, ?_⟩
    obtain ⟨engine, currentRevision⟩ := s₁
    obtain rfl : currentRevision = m := hrevision
    rw [List.foldlM_cons, hexec]
    rfl

/-! ### Reads before and after -/

lemma Holds.getAtRevision_found (h : Holds s writes) (key : Bytes) [ScansKey σ key]
    (revision : ℕ) : s.getAtRevision key revision =
      .ok ((found ((writes.map Write.op).take revision) key).bind fun x =>
        (versionAt writes x.2).bind (·.toKeyValue key)) := by
  rw [getAtRevision, h.firstVisible_found]
  cases found ((writes.map Write.op).take revision) key <;> rfl

/-- Two engines with versions of the same calls are read alike exactly if the puts that are met have
the same create revisions. -/
lemma Holds.forall_getAtRevision_eq_iff (h : Holds s writes) {s' : MvccStore σ}
    {writes' : List Write} (h' : Holds s' writes')
    (hops : writes'.map Write.op = writes.map Write.op) :
    (∀ key revision, HasRange key →
      s'.getAtRevision key revision = s.getAtRevision key revision) ↔
      ∀ key revision op i, found ((writes.map Write.op).take revision) key = some (op, i) →
        op.isPut → createdAt writes' i = createdAt writes i := by
  refine forall_congr' fun key => forall_congr' fun revision => ?_
  by_cases hkey : HasRange key
  swap
  · -- nothing is found in an inverted range
    refine iff_of_true (fun h => absurd h hkey) fun op i hfound => absurd ?_ hkey
    exact (inScan_of_found hfound).1.trans (inScan_of_found hfound).2.le
  have : ScansKey σ key := hkey.scansKey
  rw [forall_prop_of_true hkey, h.getAtRevision_found, h'.getAtRevision_found, hops]
  cases hfound : found ((writes.map Write.op).take revision) key with
  | none => simp
  | some x =>
    obtain ⟨op, i⟩ := x
    have hop := getElem?_of_isPrefix (List.take_prefix revision _) (getElem?_of_found hfound)
    obtain ⟨w, hw, rfl⟩ : ∃ w, writes[i]? = some w ∧ w.op = op := by simpa using hop
    obtain ⟨w', hw', hop'⟩ : ∃ w', writes'[i]? = some w' ∧ w'.op = w.op := by
      rw [← hops] at hop
      simpa using hop
    simp only [Option.bind_some, versionAt, hw, hw', Option.map_some, createdAt, Option.some.injEq,
      Prod.mk.injEq, and_imp, Except.ok.injEq]
    rw [Write.version, Write.version, hop']
    constructor
    · rintro heq _ _ rfl rfl hput
      rw [hw, hw']
      cases hkind : w.op with
      | put k value leaseId ttlSeconds =>
        simpa [hkind, VersionedValue.toKeyValue] using heq
      | delete k =>
        rw [hkind] at hput
        cases hput
    · intro hcreate
      cases hkind : w.op with
      | put k value leaseId ttlSeconds =>
        have := hcreate w.op i rfl rfl (by rw [hkind]; rfl)
        rw [hw, hw'] at this
        simpa [VersionedValue.toKeyValue] using this
      | delete k => rfl

/-- For every put that some read returns: if a version of a later call comes first in the range of
its key, that call is a put of the same chain, or it is a delete and the put is the first of its
chain. -/
def ReplaySafe (ops : List Op) : Prop :=
  ∀ key revision op i, found (ops.take revision) key = some (op, i) → op.isPut →
    ∀ op' q, found ops op.key = some (op', q) → i < q →
      firstOfChain ops i = if op'.isPut then firstOfChain ops q else i

/-- It is enough to look at the puts one by one. -/
lemma ReplaySafe.of_forall_lt {ops : List Op}
    (h : ∀ i < ops.length, ∀ op ∈ ops[i]?, op.isPut → ∀ x ∈ found ops op.key, i < x.2 →
      firstOfChain ops i = if x.1.isPut then firstOfChain ops x.2 else i) : ReplaySafe ops := by
  intro key revision op i hfound hput op' q hq hiq
  have hop := getElem?_of_isPrefix (List.take_prefix revision ops) (getElem?_of_found hfound)
  exact h i (List.getElem?_eq_some_iff.mp hop).1 op hop hput (op', q) hq hiq

lemma Created.createdAt_eq (hcreated : Created writes) {i : ℕ} {op : Op}
    (hop : (writes.map Write.op)[i]? = some op) (hput : op.isPut) :
    createdAt writes i = firstOfChain (writes.map Write.op) i + 1 := by
  obtain ⟨w, hw, rfl⟩ : ∃ w, writes[i]? = some w ∧ w.op = op := by simpa using hop
  rw [createdAt_of_getElem? hw, hcreated.createRevision_eq hw hput]

lemma exists_write_of_found_take {key : Bytes} {revision : ℕ} {op : Op} {i : ℕ}
    (hfound : found ((writes.map Write.op).take revision) key = some (op, i)) :
    ∃ w, writes[i]? = some w ∧ w.op = op := by
  simpa using getElem?_of_isPrefix (List.take_prefix revision _) (getElem?_of_found hfound)

lemma Created.replaySafe (hcreated : Created writes)
    (hsame : ∀ key revision op i,
      found ((writes.map Write.op).take revision) key = some (op, i) → op.isPut →
        createdAt (rewritten writes writes.length) i = createdAt writes i) :
    ReplaySafe (writes.map Write.op) := by
  intro key revision op i hfound hput op' q hq hiq
  obtain ⟨w, hw, rfl⟩ := exists_write_of_found_take hfound
  have hcreate := hsame key revision w.op i hfound hput
  rw [createdAt_rewritten hw, hq, hcreated.createdAt_eq (by simp [hw]) hput] at hcreate
  simp only [createdBy, if_neg (not_lt.mpr hiq.le)] at hcreate
  split at hcreate
  · next hput' =>
    rw [hcreated.createdAt_eq (getElem?_of_found hq) hput'] at hcreate
    rw [if_pos hput']
    exact (Nat.succ.inj hcreate).symm
  · next hput' =>
    rw [if_neg hput']
    exact (Nat.succ.inj hcreate).symm

/-- Safe puts keep their create revisions, by induction on the call. -/
lemma Created.createdAt_rewritten_eq (hcreated : Created writes) (hlen : writes.length < 2 ^ 64)
    (hsafe : ReplaySafe (writes.map Write.op)) {key : Bytes} {revision : ℕ} {op : Op} {i : ℕ}
    (hfound : found ((writes.map Write.op).take revision) key = some (op, i)) (hput : op.isPut) :
    createdAt (rewritten writes writes.length) i = createdAt writes i := by
  induction i using Nat.strong_induction_on generalizing key revision op with
  | _ i ih =>
    obtain ⟨w, hw, rfl⟩ := exists_write_of_found_take hfound
    rw [createdAt_rewritten hw]
    cases hq : found (writes.map Write.op) w.op.key with
    | none =>
      -- nothing was there the first time either
      rw [createdAt_of_getElem? hw, hcreated i w hw hput, found_take_of_none hq]
      rfl
    | some x =>
      obtain ⟨op', q⟩ := x
      simp only [createdBy]
      rcases lt_trichotomy q i with hlt | rfl | hgt
      · -- the same version was found the first time, and it has been rewritten by now
        rw [createdAt_of_getElem? hw, hcreated i w hw hput,
          found_take (by simpa using hlen) hq hlt]
        simp only [createdBy, if_pos hlt]
        split
        · next hput' =>
          have hall : found ((writes.map Write.op).take writes.length) w.op.key =
              some (op', q) := by
            rw [List.take_of_length_le (by simp)]
            exact hq
          exact ih q hlt hall hput'
        · rfl
      · -- the put finds its own version
        have hop := getElem?_of_found hq
        simp only [List.getElem?_map, hw, Option.map_some, Option.some.injEq] at hop
        rw [if_pos (hop ▸ hput), if_neg (lt_irrefl q)]
      · -- a later call comes first
        have hop : (writes.map Write.op)[i]? = some w.op := by simp [hw]
        rw [if_neg (not_lt.mpr hgt.le), hcreated.createdAt_eq hop hput,
          hsafe key revision w.op i hfound hput op' q hq hgt]
        split
        · next hput' => rw [hcreated.createdAt_eq (getElem?_of_found hq) hput']
        · rfl

lemma Created.replaySafe_iff (hcreated : Created writes) (hlen : writes.length < 2 ^ 64) :
    (∀ key revision op i, found ((writes.map Write.op).take revision) key = some (op, i) →
      op.isPut → createdAt (rewritten writes writes.length) i = createdAt writes i) ↔
      ReplaySafe (writes.map Write.op) :=
  ⟨hcreated.replaySafe, fun hsafe _ _ _ _ hfound hput =>
    hcreated.createdAt_rewritten_eq hlen hsafe hfound hput⟩

variable (σ) in
/-- Calls are made on an empty engine and then, with the counter at zero, once more. -/
lemma exists_replay_reads {ops : List Op} (hkeys : ∀ op ∈ ops, ScansKey σ op.key)
    (hfits : ∀ op ∈ ops, op.Fits) (hlen : ops.length < 2 ^ 64) :
    ∃ s s' : MvccStore σ, run σ ops = .ok s ∧
      ops.foldlM MvccStore.execute (new s.engine) = .ok s' ∧
      s.currentRevision = ops.length ∧ s'.currentRevision = ops.length ∧
      ((∀ key revision, HasRange key →
        s'.getAtRevision key revision = s.getAtRevision key revision) ↔ ReplaySafe ops) := by
  obtain ⟨s, writes, hrun, hholds, rfl, hcreated⟩ := exists_run_created σ hkeys hfits hlen
  obtain ⟨s', hreplay, hrevision, hholds'⟩ := hholds.exists_replay hkeys hfits le_rfl
  rw [List.take_of_length_le (by simp)] at hreplay
  refine ⟨s, s', hrun, hreplay, by simpa using hholds.revision_eq, by simpa using hrevision, ?_⟩
  have hreads := hholds.forall_getAtRevision_eq_iff hholds' (map_op_rewritten _ _)
  rw [hcreated.replaySafe_iff hholds.length_lt] at hreads
  exact hreads

end MvccStore

end Raftrust.Mvcc
