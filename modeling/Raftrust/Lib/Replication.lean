import Mathlib.Logic.Function.Basic
import Raftrust.Lib.History
import Raftrust.Lib.Quorum

/-!
# Term-based log replication, abstractly

A set of nodes, each with a current term and a log; at most one node leads a term, and the log it
builds in that term is the term's history. Three things happen: a node moves to a higher term
(`raise`), a leader extends its log and with it the history of its term (`lead`), and a node takes
over a prefix of a later term's history (`adopt`).

`Consistent` is what these moves preserve whoever gets to lead. `Safe` adds what holds when a
leader is backed by a majority whose logs are covered by its own: a position that a majority has
accepted from one term's history is in the history of every later term.
-/

namespace Raftrust.Lib

open Function

variable {ν α : Type*}

/-- The abstract state: `acc n t` is how much of the history of `t` node `n` has accepted. -/
structure Replication (ν α : Type*) where
  cur : ν → ℕ
  log : ν → List α
  leader : ℕ → Option ν
  hist : ℕ → List α
  acc : ν → ℕ → ℕ

namespace Replication

/-- All nodes in term `0` with empty logs. -/
def init : Replication ν α where
  cur := fun _ => 0
  log := fun _ => []
  leader := fun _ => none
  hist := fun _ => []
  acc := fun _ _ => 0

section Moves

variable [DecidableEq ν]

/-- Node `n` moves to term `t`. -/
def raise (A : Replication ν α) (n : ν) (t : ℕ) : Replication ν α :=
  { A with cur := update A.cur n t }

/-- Node `n`, leading its term, appends `es`. -/
def lead (A : Replication ν α) (n : ν) (es : List α) : Replication ν α :=
  { A with
    log := update A.log n (A.log n ++ es)
    leader := update A.leader (A.cur n) (some n)
    hist := update A.hist (A.cur n) (A.log n ++ es)
    acc := update A.acc n (update (A.acc n) (A.cur n) (A.log n ++ es).length) }

/-- Node `n` moves to term `t` and replaces its log by `L`, taken over in term `t`. -/
def adopt (A : Replication ν α) (n : ν) (t : ℕ) (L : List α) : Replication ν α :=
  { A with
    cur := update A.cur n t
    log := update A.log n L
    acc := update A.acc n (update (A.acc n) t L.length) }

variable {A : Replication ν α} {n v : ν} {s t : ℕ} {es L : List α}

@[simp]
lemma raise_cur_self : (A.raise n t).cur n = t := update_self ..

@[simp]
lemma raise_cur_of_ne (h : v ≠ n) : (A.raise n t).cur v = A.cur v := update_of_ne h ..

@[simp]
lemma lead_cur : (A.lead n es).cur = A.cur := rfl

@[simp]
lemma lead_log_self : (A.lead n es).log n = A.log n ++ es := update_self ..

@[simp]
lemma lead_log_of_ne (h : v ≠ n) : (A.lead n es).log v = A.log v := update_of_ne h ..

@[simp]
lemma lead_leader_self : (A.lead n es).leader (A.cur n) = some n := update_self ..

@[simp]
lemma lead_leader_of_ne (h : t ≠ A.cur n) : (A.lead n es).leader t = A.leader t :=
  update_of_ne h ..

@[simp]
lemma lead_hist_self : (A.lead n es).hist (A.cur n) = A.log n ++ es := update_self ..

@[simp]
lemma lead_hist_of_ne (h : t ≠ A.cur n) : (A.lead n es).hist t = A.hist t := update_of_ne h ..

@[simp]
lemma lead_acc_self : (A.lead n es).acc n (A.cur n) = (A.log n ++ es).length := by
  simp [lead]

lemma lead_acc_of_ne (h : v ≠ n ∨ t ≠ A.cur n) : (A.lead n es).acc v t = A.acc v t := by
  rcases eq_or_ne v n with rfl | hv
  · simp [lead, update_of_ne (h.resolve_left fun hne => hne rfl)]
  · simp [lead, update_of_ne hv]

lemma eq_cur_of_lead_leader (hnone : A.leader t = none) (hl : (A.lead n es).leader t ≠ none) :
    t = A.cur n := by
  by_contra hne
  exact hl ((lead_leader_of_ne hne).trans hnone)

/-- The leaders there are stay, when a term has no second one. -/
lemma lead_leader_of_eq_some {m : ν} (hunique : ∀ m, A.leader (A.cur n) = some m → m = n)
    (hm : A.leader t = some m) : (A.lead n es).leader t = some m := by
  rcases eq_or_ne t (A.cur n) with rfl | ht
  · rw [lead_leader_self, hunique m hm]
  · rwa [lead_leader_of_ne ht]

@[simp]
lemma adopt_cur_self : (A.adopt n t L).cur n = t := update_self ..

@[simp]
lemma adopt_cur_of_ne (h : v ≠ n) : (A.adopt n t L).cur v = A.cur v := update_of_ne h ..

@[simp]
lemma adopt_log_self : (A.adopt n t L).log n = L := update_self ..

@[simp]
lemma adopt_log_of_ne (h : v ≠ n) : (A.adopt n t L).log v = A.log v := update_of_ne h ..

@[simp]
lemma adopt_acc_self : (A.adopt n t L).acc n t = L.length := by
  simp [adopt]

lemma adopt_acc_of_ne (h : v ≠ n ∨ s ≠ t) : (A.adopt n t L).acc v s = A.acc v s := by
  rcases eq_or_ne v n with rfl | hv
  · simp [adopt, update_of_ne (h.resolve_left fun hne => hne rfl)]
  · simp [adopt, update_of_ne hv]

end Moves

/-! ### Consistency -/

/-- What holds of logs and histories whoever leads. `ok i e` says that `e` may stand at `i`. -/
structure Consistent (term : α → ℕ) (ok : ℕ → α → Prop) (A : Replication ν α) : Prop where
  wf : WellFormed term A.hist
  hist_ok : ∀ t i e, (A.hist t)[i]? = some e → ok i e
  log_matches : ∀ n, Matches term A.hist (A.log n)
  term_le : ∀ n, ∀ e ∈ A.log n, term e ≤ A.cur n
  leader_log : ∀ t n, A.leader t = some n → A.cur n = t → A.log n = A.hist t
  leader_cur : ∀ t n, A.leader t = some n → t ≤ A.cur n
  hist_nil : ∀ t, A.leader t = none → A.hist t = []

section Consistency

variable {term : α → ℕ} {ok : ℕ → α → Prop} {A : Replication ν α}

lemma Consistent.init : Consistent term ok (init : Replication ν α) where
  wf := ⟨fun _ => matches_nil, fun _ _ h => by simp [Replication.init] at h⟩
  hist_ok := fun _ _ _ h => by simp [Replication.init] at h
  log_matches := fun _ => matches_nil
  term_le := fun _ _ h => by simp [Replication.init] at h
  leader_log := fun _ _ h => by simp [Replication.init] at h
  leader_cur := fun _ _ h => by simp [Replication.init] at h
  hist_nil := fun _ _ => rfl

/-- Every entry of every log is allowed at its position. -/
lemma Consistent.log_ok (h : Consistent term ok A) {n : ν} {i : ℕ} {e : α}
    (he : (A.log n)[i]? = some e) : ok i e :=
  h.hist_ok (term e) i e ((h.log_matches n).getElem?_history he)

lemma Consistent.term_le_append (h : Consistent term ok A) {n : ν} {es : List α}
    (hes : ∀ e ∈ es, term e = A.cur n) : ∀ e ∈ A.log n ++ es, term e ≤ A.cur n := by
  intro e he
  rcases List.mem_append.mp he with he | he
  · exact h.term_le n e he
  · exact (hes e he).le

/-- A term whose history holds anything has been led. -/
lemma Consistent.exists_leader (h : Consistent term ok A) {t i : ℕ} {e : α}
    (he : (A.hist t)[i]? = some e) : ∃ n, A.leader t = some n := by
  cases hl : A.leader t with
  | none => rw [h.hist_nil t hl] at he; simp at he
  | some n => exact ⟨n, rfl⟩

variable [DecidableEq ν]

lemma Consistent.raise (h : Consistent term ok A) {n : ν} {t : ℕ} (hn : A.cur n ≤ t) :
    Consistent term ok (A.raise n t) where
  wf := h.wf
  hist_ok := h.hist_ok
  log_matches := h.log_matches
  term_le := by
    intro m e he
    have hle := h.term_le m e he
    rcases eq_or_ne m n with rfl | hm
    · rw [raise_cur_self]
      exact hle.trans hn
    · rwa [raise_cur_of_ne hm]
  leader_log := by
    intro t' m hl hm
    have hcur := h.leader_cur t' m hl
    rcases eq_or_ne m n with rfl | hne
    · rw [raise_cur_self] at hm
      exact h.leader_log t' m hl (by omega)
    · rw [raise_cur_of_ne hne] at hm
      exact h.leader_log t' m hl hm
  leader_cur := by
    intro t' m hl
    have hcur := h.leader_cur t' m hl
    rcases eq_or_ne m n with rfl | hne
    · rw [raise_cur_self]
      exact hcur.trans hn
    · rwa [raise_cur_of_ne hne]
  hist_nil := h.hist_nil

lemma Consistent.hist_prefix_lead (h : Consistent term ok A) {n : ν}
    (hn : A.leader (A.cur n) = none ∨ A.leader (A.cur n) = some n) (es : List α) (t : ℕ) :
    A.hist t <+: (A.lead n es).hist t := by
  rcases eq_or_ne t (A.cur n) with rfl | ht
  · rw [lead_hist_self]
    rcases hn with hn | hn
    · rw [h.hist_nil _ hn]
      exact List.nil_prefix
    · rw [← h.leader_log _ n hn rfl]
      exact List.prefix_append _ _
  · rw [lead_hist_of_ne ht]

/-- The leader's new log is a history that agrees with the others. -/
lemma Consistent.matches_append (h : Consistent term ok A) {n : ν} {es : List α}
    (hn : A.leader (A.cur n) = none ∨ A.leader (A.cur n) = some n)
    (hes : ∀ e ∈ es, term e = A.cur n) : Matches term (A.lead n es).hist (A.log n ++ es) :=
  (h.log_matches n).append hes (h.hist_prefix_lead hn es) (by rw [lead_hist_self])

lemma Consistent.wellFormed_lead (h : Consistent term ok A) {n : ν} {es : List α}
    (hn : A.leader (A.cur n) = none ∨ A.leader (A.cur n) = some n)
    (hes : ∀ e ∈ es, term e = A.cur n) : WellFormed term (A.lead n es).hist := by
  constructor
  · intro t
    rcases eq_or_ne t (A.cur n) with rfl | ht
    · rw [lead_hist_self]
      exact h.matches_append hn hes
    · rw [lead_hist_of_ne ht]
      exact (h.wf.self t).mono (h.hist_prefix_lead hn es)
  · intro t e he
    rcases eq_or_ne t (A.cur n) with rfl | ht
    · rw [lead_hist_self] at he
      exact h.term_le_append hes e he
    · rw [lead_hist_of_ne ht] at he
      exact h.wf.term_le t e he

lemma Consistent.lead (h : Consistent term ok A) {n : ν} {es : List α}
    (hn : A.leader (A.cur n) = none ∨ A.leader (A.cur n) = some n)
    (hes : ∀ e ∈ es, term e = A.cur n)
    (hok : ∀ i e, es[i]? = some e → ok ((A.log n).length + i) e) :
    Consistent term ok (A.lead n es) := by
  constructor
  case wf => exact h.wellFormed_lead hn hes
  case hist_ok =>
    intro t i e he
    rcases eq_or_ne t (A.cur n) with rfl | ht
    · rw [lead_hist_self] at he
      by_cases hi : i < (A.log n).length
      · rw [List.getElem?_append_left hi] at he
        exact h.log_ok he
      · rw [List.getElem?_append_right (by omega)] at he
        have := hok _ e he
        rwa [Nat.add_sub_cancel' (by omega)] at this
    · rw [lead_hist_of_ne ht] at he
      exact h.hist_ok t i e he
  case log_matches =>
    intro m
    rcases eq_or_ne m n with rfl | hm
    · rw [lead_log_self]
      exact h.matches_append hn hes
    · rw [lead_log_of_ne hm]
      exact (h.log_matches m).mono (h.hist_prefix_lead hn es)
  case term_le =>
    intro m e he
    rcases eq_or_ne m n with rfl | hm
    · rw [lead_log_self] at he
      exact h.term_le_append hes e he
    · rw [lead_log_of_ne hm] at he
      exact h.term_le m e he
  case leader_log =>
    intro t m hl hm
    rw [lead_cur] at hm
    rcases eq_or_ne t (A.cur n) with rfl | ht
    · obtain rfl : n = m := by simpa using hl
      simp
    · have hne : m ≠ n := fun hmn => ht (by rw [← hm, hmn])
      rw [lead_leader_of_ne ht] at hl
      rw [lead_log_of_ne hne, lead_hist_of_ne ht]
      exact h.leader_log t m hl hm
  case leader_cur =>
    intro t m hl
    rw [lead_cur]
    rcases eq_or_ne t (A.cur n) with rfl | ht
    · obtain rfl : n = m := by simpa using hl
      exact le_rfl
    · rw [lead_leader_of_ne ht] at hl
      exact h.leader_cur t m hl
  case hist_nil =>
    intro t hl
    rcases eq_or_ne t (A.cur n) with rfl | ht
    · simp at hl
    · rw [lead_leader_of_ne ht] at hl
      rw [lead_hist_of_ne ht]
      exact h.hist_nil t hl

/-- A node other than the leader of `t` may move to `t` with a prefix of its own log or of the
history of `t`. -/
lemma Consistent.adopt (h : Consistent term ok A) {n : ν} {t : ℕ} {L : List α}
    (hn : A.cur n ≤ t) (hl : A.leader t ≠ some n)
    (hL : L <+: A.log n ∨ L <+: A.hist t) : Consistent term ok (A.adopt n t L) where
  wf := h.wf
  hist_ok := h.hist_ok
  log_matches := by
    intro m
    rcases eq_or_ne m n with rfl | hm
    · rw [adopt_log_self]
      rcases hL with hL | hL
      · exact (h.log_matches m).of_isPrefix hL
      · exact (h.wf.self t).of_isPrefix hL
    · rw [adopt_log_of_ne hm]
      exact h.log_matches m
  term_le := by
    intro m e he
    rcases eq_or_ne m n with rfl | hm
    · rw [adopt_log_self] at he
      rw [adopt_cur_self]
      rcases hL with hL | hL
      · exact (h.term_le m e (hL.subset he)).trans hn
      · exact h.wf.term_le t e (hL.subset he)
    · rw [adopt_log_of_ne hm] at he
      rw [adopt_cur_of_ne hm]
      exact h.term_le m e he
  leader_log := by
    intro t' m hlead hm
    rcases eq_or_ne m n with rfl | hne
    · rw [adopt_cur_self] at hm
      exact absurd (hm ▸ hlead) hl
    · rw [adopt_cur_of_ne hne] at hm
      rw [adopt_log_of_ne hne]
      exact h.leader_log t' m hlead hm
  leader_cur := by
    intro t' m hlead
    have hcur := h.leader_cur t' m hlead
    rcases eq_or_ne m n with rfl | hne
    · rw [adopt_cur_self]
      exact hcur.trans hn
    · rwa [adopt_cur_of_ne hne]
  hist_nil := h.hist_nil

end Consistency

/-! ### Growth -/

/-- How a state may change in one move. What a node has accepted from terms below its current one
is settled. -/
structure Grows (A A' : Replication ν α) : Prop where
  cur_le : ∀ v, A.cur v ≤ A'.cur v
  hist_le : ∀ t, A.hist t <+: A'.hist t
  acc_le : ∀ v t, A.acc v t ≤ A'.acc v t
  acc_eq : ∀ v t, t < A.cur v → A'.acc v t = A.acc v t

/-- Position `i` of the history of `t` holds an entry that the leader of `t` itself created. -/
def Own (term : α → ℕ) (A : Replication ν α) (t i : ℕ) : Prop :=
  ∃ e, (A.hist t)[i]? = some e ∧ term e = t

/-- A majority has left term `t` without accepting position `i` of its history. -/
def Blocked (members : Finset ν) (A : Replication ν α) (t i : ℕ) : Prop :=
  ∃ Q, IsMajority members Q ∧ ∀ v ∈ Q, t < A.cur v ∧ A.acc v t ≤ i

/-- A majority has accepted position `i` of the history of `t`, an entry of `t` itself. -/
def Chosen (term : α → ℕ) (members : Finset ν) (A : Replication ν α) (t i : ℕ) : Prop :=
  A.Own term t i ∧ ∃ Q, IsMajority members Q ∧ ∀ v ∈ Q, i < A.acc v t

/-- The log `L` covers what `v` has accepted below term `T`, as far as it can still matter. -/
def Covers (term : α → ℕ) (members : Finset ν) (A : Replication ν α) (v : ν) (L : List α)
    (T : ℕ) : Prop :=
  T ≤ A.cur v ∧ ∀ t i, t < T → A.Own term t i →
    (A.hist t).take (i + 1) <+: L ∨ A.Blocked members t i ∨ A.acc v t ≤ i

section Growth

variable {term : α → ℕ} {ok : ℕ → α → Prop} {members : Finset ν} {A A' : Replication ν α}

lemma Grows.refl (A : Replication ν α) : Grows A A :=
  ⟨fun _ => le_rfl, fun _ => List.prefix_rfl, fun _ _ => le_rfl, fun _ _ _ => rfl⟩

lemma Grows.trans {A'' : Replication ν α} (h : Grows A A') (h' : Grows A' A'') : Grows A A'' where
  cur_le := fun v => (h.cur_le v).trans (h'.cur_le v)
  hist_le := fun t => (h.hist_le t).trans (h'.hist_le t)
  acc_le := fun v t => (h.acc_le v t).trans (h'.acc_le v t)
  acc_eq := by
    intro v t ht
    rw [h'.acc_eq v t (ht.trans_le (h.cur_le v)), h.acc_eq v t ht]

lemma Own.lt_length {t i : ℕ} (h : A.Own term t i) : i < (A.hist t).length := by
  obtain ⟨e, he, -⟩ := h
  exact (List.getElem?_eq_some_iff.mp he).1

lemma Grows.take_eq (h : Grows A A') {t i : ℕ} (hi : i < (A.hist t).length) :
    (A'.hist t).take (i + 1) = (A.hist t).take (i + 1) := by
  obtain ⟨rest, hrest⟩ := h.hist_le t
  rw [← hrest, List.take_append_of_le_length hi]

lemma Grows.own (h : Grows A A') {t i : ℕ} (ho : A.Own term t i) : A'.Own term t i := by
  obtain ⟨e, he, hterm⟩ := ho
  exact ⟨e, getElem?_of_isPrefix (h.hist_le t) he, hterm⟩

lemma Grows.own_of_lt (h : Grows A A') {t i : ℕ} (ho : A'.Own term t i)
    (hi : i < (A.hist t).length) : A.Own term t i := by
  obtain ⟨e, he, hterm⟩ := ho
  refine ⟨e, ?_, hterm⟩
  have hold := getElem?_of_isPrefix (h.hist_le t) (List.getElem?_eq_getElem hi)
  rw [hold] at he
  rw [List.getElem?_eq_getElem hi, he]

lemma Grows.blocked (h : Grows A A') {t i : ℕ} (hb : A.Blocked members t i) :
    A'.Blocked members t i := by
  obtain ⟨Q, hQ, hv⟩ := hb
  refine ⟨Q, hQ, fun v hvQ => ?_⟩
  obtain ⟨hlt, hle⟩ := hv v hvQ
  exact ⟨hlt.trans_le (h.cur_le v), by rw [h.acc_eq v t hlt]; exact hle⟩

lemma Grows.chosen (h : Grows A A') {t i : ℕ} (hc : A.Chosen term members t i) :
    A'.Chosen term members t i := by
  obtain ⟨ho, Q, hQ, hv⟩ := hc
  exact ⟨h.own ho, Q, hQ, fun v hvQ => (hv v hvQ).trans_le (h.acc_le v t)⟩

/-- What has been chosen cannot be blocked. -/
lemma Chosen.not_blocked {t i : ℕ} (hc : A.Chosen term members t i) :
    ¬ A.Blocked members t i := by
  rintro ⟨Q', hQ', hv'⟩
  obtain ⟨-, Q, hQ, hv⟩ := hc
  obtain ⟨v, hvQ, hvQ'⟩ := hQ.exists_mem_mem hQ'
  have hlt := hv v hvQ
  have hle := (hv' v hvQ').2
  omega

/-- Coverage is stable: what a later history adds below `T` the voter can no longer accept. -/
lemma Grows.covers (h : Grows A A') (hacc : ∀ v t, A.acc v t ≤ (A.hist t).length) {v : ν}
    {L : List α} {T : ℕ} (hc : A.Covers term members v L T) :
    A'.Covers term members v L T := by
  obtain ⟨hT, hcov⟩ := hc
  refine ⟨hT.trans (h.cur_le v), fun t i ht ho => ?_⟩
  have hsame : A'.acc v t = A.acc v t := h.acc_eq v t (ht.trans_le hT)
  by_cases hi : i < (A.hist t).length
  · rw [h.take_eq hi, hsame]
    rcases hcov t i ht (h.own_of_lt ho hi) with hL | hb | ha
    · exact .inl hL
    · exact .inr (.inl (h.blocked hb))
    · exact .inr (.inr ha)
  · right; right
    have := hacc v t
    omega

end Growth

/-! ### Safety -/

/-- The invariant behind the agreement of chosen positions. -/
structure Safe (term : α → ℕ) (ok : ℕ → α → Prop) (members : Finset ν)
    (A : Replication ν α) : Prop extends Consistent term ok A where
  acc_le : ∀ v t, A.acc v t ≤ (A.hist t).length
  acc_cur : ∀ v t, 0 < A.acc v t → t ≤ A.cur v
  pinned : ∀ v, 0 < A.acc v (A.cur v) →
    A.log v <+: A.hist (A.cur v) ∧ (A.log v).length = A.acc v (A.cur v)
  acc_log : ∀ v t i, A.Own term t i → i < A.acc v t →
    (A.hist t).take (i + 1) <+: A.log v ∨ A.Blocked members t i
  later : ∀ t t' i, t < t' → A.leader t' ≠ none → A.Own term t i →
    (A.hist t).take (i + 1) <+: A.hist t' ∨ A.Blocked members t i
  backed : ∀ t, A.leader t ≠ none → ∃ Q, IsMajority members Q ∧ ∀ v ∈ Q, t ≤ A.cur v

/-- The term of the last entry, `0` for an empty log. -/
def lastTerm (term : α → ℕ) (L : List α) : ℕ :=
  (L.getLast?.map term).getD 0

/-- `L` is at least as up to date as `L'`: a later last term, or the same and no shorter. -/
def UpToDate (term : α → ℕ) (L L' : List α) : Prop :=
  lastTerm term L' < lastTerm term L ∨
    (lastTerm term L' = lastTerm term L ∧ L'.length ≤ L.length)

/-- A commit point `c` of a log: below it the log follows a history up to a chosen position, of a
term not after `T`. -/
def CommittedUpTo (term : α → ℕ) (members : Finset ν) (A : Replication ν α) (c : ℕ)
    (L : List α) (T : ℕ) : Prop :=
  c = 0 ∨ ∃ t i, A.Chosen term members t i ∧ c ≤ i + 1 ∧ t ≤ T ∧ (A.hist t).take c <+: L

section Safety

variable {term : α → ℕ} {ok : ℕ → α → Prop} {members : Finset ν} {A : Replication ν α}

lemma Safe.init : Safe term ok members (init : Replication ν α) where
  toConsistent := Consistent.init
  acc_le := fun _ _ => le_rfl
  acc_cur := fun _ _ h => absurd h (lt_irrefl 0)
  pinned := fun _ h => absurd h (lt_irrefl 0)
  acc_log := fun _ _ _ _ h => absurd h (Nat.not_lt_zero _)
  later := fun _ _ _ _ h => absurd rfl h
  backed := fun _ h => absurd rfl h

/-- **Leader completeness.** A chosen position is in the history of every later term. -/
theorem Safe.chosen_later (h : Safe term ok members A) {t t' i : ℕ}
    (hc : A.Chosen term members t i) (ht : t < t') (hl : A.leader t' ≠ none) :
    (A.hist t).take (i + 1) <+: A.hist t' := by
  rcases h.later t t' i ht hl hc.1 with hp | hb
  · exact hp
  · exact absurd hb hc.not_blocked

lemma Safe.chosen_le (h : Safe term ok members A) {t t' i : ℕ}
    (hc : A.Chosen term members t i) (ht : t ≤ t') (hl : A.leader t' ≠ none) :
    (A.hist t).take (i + 1) <+: A.hist t' := by
  rcases ht.eq_or_lt with rfl | ht
  · exact List.take_prefix _ _
  · exact h.chosen_later hc ht hl

lemma Safe.chosen_term_le (h : Safe term ok members A) {t T i : ℕ}
    (hc : A.Chosen term members t i) {Q : Finset ν} (hQ : IsMajority members Q)
    (hcur : ∀ v ∈ Q, A.cur v ≤ T) : t ≤ T := by
  obtain ⟨-, Q', hQ', hacc⟩ := hc
  obtain ⟨v, hv, hv'⟩ := hQ.exists_mem_mem hQ'
  exact (h.acc_cur v t (Nat.zero_lt_of_lt (hacc v hv'))).trans (hcur v hv)

/-- A term that holds an entry of its own has been led. -/
lemma Consistent.leader_ne_none (h : Consistent term ok A) {t i : ℕ} (hown : A.Own term t i) :
    A.leader t ≠ none := by
  obtain ⟨e, he, -⟩ := hown
  obtain ⟨m, hm⟩ := h.exists_leader he
  simp [hm]

/-- What a history takes over from an earlier term stands before everything that its leader
creates itself. -/
lemma Consistent.lt_own_of_prefix (h : Consistent term ok A) {t T i j : ℕ} (ht : t < T)
    (ho : A.Own term t i) (hp : (A.hist t).take (i + 1) <+: A.hist T) (hown : A.Own term T j) :
    i < j := by
  obtain ⟨e, he, hterm⟩ := hown
  obtain ⟨e', he', hterm'⟩ := ho
  have hi := getElem?_of_take_isPrefix hp (Nat.lt_succ_self i) he'
  by_contra hle
  have := (h.wf.self T).term_mono h.wf (not_lt.mp hle) he hi
  omega

lemma Safe.chosen_lt_own (h : Safe term ok members A) {t T i j : ℕ}
    (hc : A.Chosen term members t i) (ht : t < T) (hown : A.Own term T j) : i < j :=
  h.lt_own_of_prefix ht hc.1 (h.chosen_later hc ht (h.leader_ne_none hown)) hown

lemma exists_last (term : α → ℕ) {L : List α} (hL : L ≠ []) :
    ∃ e, L[L.length - 1]? = some e ∧ lastTerm term L = term e := by
  refine ⟨L.getLast hL, ?_, ?_⟩
  · rw [List.getElem?_eq_getElem (by have := List.length_pos_iff.mpr hL; omega),
      List.getLast_eq_getElem]
  · rw [lastTerm, List.getLast?_eq_some_getLast hL]
    rfl

lemma prefix_last {G : ℕ → List α} {L : List α} (h : Matches term G L) (hL : L ≠ []) :
    L <+: G (lastTerm term L) := by
  obtain ⟨e, he, hterm⟩ := exists_last term hL
  have hp := h _ e he
  rwa [Nat.sub_add_cancel (List.length_pos_iff.mpr hL), List.take_length, ← hterm] at hp

/-- A history that ends in an entry of its own term is up to date for every log without later
terms. -/
lemma Consistent.upToDate_hist (h : Consistent term ok A) {v : ν} {t : ℕ}
    (hle : ∀ e ∈ A.log v, term e ≤ t) (ho : A.Own term t ((A.hist t).length - 1)) :
    UpToDate term (A.hist t) (A.log v) := by
  obtain ⟨e, he, hterm⟩ := ho
  have hlast : lastTerm term (A.hist t) = t := by
    rw [lastTerm, List.getLast?_eq_getElem?, he, Option.map_some, Option.getD_some, hterm]
  rw [UpToDate, hlast]
  cases hlog : (A.log v).getLast? with
  | none =>
    rw [List.getLast?_eq_none_iff.mp hlog]
    rcases Nat.eq_zero_or_pos t with rfl | hpos
    · exact .inr ⟨rfl, Nat.zero_le _⟩
    · exact .inl hpos
  | some e' =>
    rw [List.getLast?_eq_getElem?] at hlog
    have hlast' : lastTerm term (A.log v) = term e' := by
      rw [lastTerm, List.getLast?_eq_getElem?, hlog, Option.map_some, Option.getD_some]
    rw [hlast']
    rcases (hle e' (List.mem_of_getElem? hlog)).lt_or_eq with hlt | heq
    · exact .inl hlt
    · exact .inr ⟨heq, ((h.log_matches v).prefix_of_own h.wf hle hlog heq).length_le⟩

/-- **The election restriction.** A log at least as up to date as the voter's covers what the
voter has accepted. -/
theorem Safe.covers_of_upToDate (h : Safe term ok members A) {v : ν} {L : List α} {T : ℕ}
    (hT : T ≤ A.cur v) (hL : Matches term A.hist L) (hup : UpToDate term L (A.log v)) :
    A.Covers term members v L T := by
  refine ⟨hT, fun t i _ ho => ?_⟩
  by_cases hi : i < A.acc v t
  swap
  · exact .inr (.inr (not_lt.mp hi))
  rcases h.acc_log v t i ho hi with hpre | hb
  swap
  · exact .inr (.inl hb)
  obtain ⟨e, he, hterm⟩ := ho
  have hilen : i < (A.hist t).length := (List.getElem?_eq_some_iff.mp he).1
  have hev : (A.log v)[i]? = some e := getElem?_of_take_isPrefix hpre (Nat.lt_succ_self i) he
  have hne : A.log v ≠ [] := by rintro hnil; simp [hnil] at hev
  obtain ⟨ev, hevlast, hlastv⟩ := exists_last term hne
  have hmono : t ≤ lastTerm term (A.log v) := by
    have hi' : i < (A.log v).length := (List.getElem?_eq_some_iff.mp hev).1
    have := (h.log_matches v).term_mono h.wf (by omega) hev hevlast
    omega
  have hvhist := prefix_last (h.log_matches v) hne
  rcases hup with hlt | ⟨heq, hlen⟩
  · -- a later last term: that term's history already contains the position
    have hLne : L ≠ [] := by rintro rfl; simp [lastTerm] at hlt
    obtain ⟨el, hel, hlastl⟩ := exists_last term hLne
    have hLhist := prefix_last hL hLne
    have hel' := getElem?_of_isPrefix hLhist hel
    obtain ⟨m, hm⟩ := h.exists_leader hel'
    rcases h.later t (lastTerm term L) i (by omega) (by rw [hm]; simp) ⟨e, he, hterm⟩
      with hlater | hb
    swap
    · exact .inr (.inl hb)
    left
    refine List.prefix_of_prefix_length_le hlater hLhist ?_
    -- the position lies below the last entry of `L`, whose term is later
    by_contra hlong
    have hilast : L.length - 1 ≤ i := by simp at hlong; omega
    have hei := getElem?_of_take_isPrefix hlater (Nat.lt_succ_self i) he
    have := (h.wf.self (lastTerm term L)).term_mono h.wf hilast hel' hei
    omega
  · -- the same last term: the voter's log is a prefix of `L`
    left
    have hLne : L ≠ [] := by
      rintro rfl
      have : (A.log v).length = 0 := by simpa using hlen
      exact hne (List.length_eq_zero_iff.mp this)
    have hLhist := prefix_last hL hLne
    rw [heq] at hvhist
    exact hpre.trans (List.prefix_of_prefix_length_le hvhist hLhist hlen)

/-- **Agreement.** Two logs hold the same entry below both their commit points. -/
theorem Safe.committed_agree (h : Safe term ok members A) {c c' T T' j : ℕ} {L L' : List α}
    (hc : A.CommittedUpTo term members c L T) (hc' : A.CommittedUpTo term members c' L' T')
    (hj : j < c) (hj' : j < c') : L[j]? = L'[j]? := by
  rcases hc with rfl | ⟨t, i, hch, hci, -, hp⟩
  · omega
  rcases hc' with rfl | ⟨t', i', hch', hci', -, hp'⟩
  · omega
  have hlt := hch.1.lt_length
  have hlt' := hch'.1.lt_length
  obtain ⟨e, he⟩ : ∃ e, (A.hist t)[j]? = some e := ⟨_, List.getElem?_eq_getElem (by omega)⟩
  obtain ⟨e', he'⟩ : ∃ e', (A.hist t')[j]? = some e' := ⟨_, List.getElem?_eq_getElem (by omega)⟩
  rw [getElem?_of_take_isPrefix hp hj he, getElem?_of_take_isPrefix hp' hj' he']
  -- the earlier of the two chosen positions is in the history of the later term
  rcases le_total t t' with htt | htt
  · have hle := h.chosen_le hch htt (h.leader_ne_none hch'.1)
    rw [← he', getElem?_of_take_isPrefix hle (by omega) he]
  · have hle := h.chosen_le hch' htt (h.leader_ne_none hch.1)
    rw [← he, getElem?_of_take_isPrefix hle (by omega) he']

/-- There is an entry at every position below a commit point. -/
lemma CommittedUpTo.exists_getElem? {c T j : ℕ} {L : List α}
    (hc : A.CommittedUpTo term members c L T) (hj : j < c) : ∃ e, L[j]? = some e := by
  rcases hc with rfl | ⟨t, i, hch, hci, -, hp⟩
  · omega
  have hlt : j < (A.hist t).length := by
    have := hch.1.lt_length
    omega
  exact ⟨_, getElem?_of_take_isPrefix hp hj (List.getElem?_eq_getElem hlt)⟩

/-- A log that follows the history of a term holds what was committed not after that term. -/
lemma CommittedUpTo.getElem?_hist (h : Safe term ok members A) {c T T' j : ℕ} {L : List α} {e : α}
    (hc : A.CommittedUpTo term members c L T) (hj : j < c) (he : L[j]? = some e) (hT : T ≤ T')
    (hl : A.leader T' ≠ none) : (A.hist T')[j]? = some e := by
  rcases hc with rfl | ⟨t, i, hch, hci, ht, hp⟩
  · omega
  have hlt : j < (A.hist t).length := by
    have := hch.1.lt_length
    omega
  have hjt := List.getElem?_eq_getElem hlt
  rw [getElem?_of_take_isPrefix hp hj hjt] at he
  rw [← he]
  exact getElem?_of_take_isPrefix (h.chosen_le hch (ht.trans hT) hl) (by omega) hjt

/-- A commit point moves along with the growth of the state and of the log below it. -/
lemma CommittedUpTo.mono {A' : Replication ν α} (hg : Grows A A') {c T T' : ℕ} {L L' : List α}
    (hc : A.CommittedUpTo term members c L T) (hT : T ≤ T') (hL : L.take c <+: L') :
    A'.CommittedUpTo term members c L' T' := by
  rcases hc with rfl | ⟨t, i, hch, hci, ht, hp⟩
  · exact .inl rfl
  refine .inr ⟨t, i, hg.chosen hch, hci, ht.trans hT, ?_⟩
  have hlt := hch.1.lt_length
  have hlen : ((A.hist t).take c).length = c := by simp; omega
  have htake : (A'.hist t).take c = (A.hist t).take c := by
    obtain ⟨rest, hrest⟩ := hg.hist_le t
    rw [← hrest, List.take_append_of_le_length (by omega)]
  rw [htake]
  refine List.IsPrefix.trans ?_ hL
  have := hp.take c
  rwa [List.take_take, min_self] at this

/-- A log that follows the history of `T` up to `k` is committed up to `min c k` when some log was
committed up to `c` in a term not after `T`. -/
lemma CommittedUpTo.of_hist (h : Safe term ok members A) {c T k : ℕ} {L L' : List α}
    (hc : A.CommittedUpTo term members c L T) (hl : A.leader T ≠ none)
    (hL : (A.hist T).take k <+: L') : A.CommittedUpTo term members (min c k) L' T := by
  rcases hc with rfl | ⟨t, i, hch, hci, ht, -⟩
  · exact .inl (by simp)
  refine .inr ⟨t, i, hch, (min_le_left c k).trans hci, ht, ?_⟩
  have hle := (h.chosen_le hch ht hl).take (min c k)
  rw [List.take_take, min_eq_left (by omega)] at hle
  refine hle.trans (List.IsPrefix.trans ?_ hL)
  rw [List.take_isPrefix_take]
  exact .inl (min_le_right c k)

/-- A node that takes over part of the history of `t`, but not less than it has of it, keeps
everything below its commit point. -/
lemma CommittedUpTo.adopt (h : Safe term ok members A) {c T t : ℕ} {L L' : List α}
    (hc : A.CommittedUpTo term members c L T) (hT : T ≤ t) (hl : A.leader t ≠ none)
    (hL' : L' <+: A.hist t) (hkeep : L' = L ∨ ¬ L' <+: L) :
    A.CommittedUpTo term members c L' t := by
  rcases hc with rfl | ⟨s, i, hch, hci, hs, hp⟩
  · exact .inl rfl
  refine .inr ⟨s, i, hch, hci, hs.trans hT, ?_⟩
  rcases hkeep with rfl | hnot
  · exact hp
  have hlen : ((A.hist s).take c).length = c := by
    have := hch.1.lt_length
    simp
    omega
  have hle := (h.chosen_le hch (hs.trans hT) hl).take c
  rw [List.take_take, min_eq_left hci] at hle
  have hhist := hle.trans (List.take_prefix c (A.hist t))
  -- otherwise what is taken over would be part of the old log
  have hlong : c ≤ L'.length := by
    by_contra hshort
    exact hnot ((List.prefix_of_prefix_length_le hL' hhist (by omega)).trans hp)
  exact List.prefix_of_prefix_length_le hhist hL' (by omega)

/-- A majority that a log covers decides about every position of an earlier term. -/
lemma prefix_or_blocked_of_covers {Q : Finset ν} (hQ : IsMajority members Q) {L : List α} {T : ℕ}
    (hcov : ∀ v ∈ Q, A.Covers term members v L T) {t i : ℕ} (ht : t < T) (ho : A.Own term t i) :
    (A.hist t).take (i + 1) <+: L ∨ A.Blocked members t i := by
  by_cases hall : ∀ v ∈ Q, A.acc v t ≤ i
  · exact .inr ⟨Q, hQ, fun v hv => ⟨ht.trans_le (hcov v hv).1, hall v hv⟩⟩
  · push Not at hall
    obtain ⟨v, hv, hacc⟩ := hall
    rcases (hcov v hv).2 t i ht ho with hp | hb | hle
    · exact .inl hp
    · exact .inr hb
    · omega

/-- The voters of a later leader have passed by what the history of a term does not hold yet. -/
lemma Safe.blocked_of_length_le (h : Safe term ok members A) {t t' i : ℕ} (ht : t < t')
    (hl : A.leader t' ≠ none) (hi : (A.hist t).length ≤ i) : A.Blocked members t i := by
  obtain ⟨Q, hQ, hv⟩ := h.backed t' hl
  refine ⟨Q, hQ, fun v hvQ => ⟨ht.trans_le (hv v hvQ), ?_⟩⟩
  exact (h.acc_le v t).trans hi

variable [DecidableEq ν]

lemma grows_raise {n : ν} {t : ℕ} (hn : A.cur n ≤ t) : Grows A (A.raise n t) where
  cur_le := by
    intro v
    rcases eq_or_ne v n with rfl | hv
    · rwa [raise_cur_self]
    · rw [raise_cur_of_ne hv]
  hist_le := fun _ => List.prefix_rfl
  acc_le := fun _ _ => le_rfl
  acc_eq := fun _ _ _ => rfl

lemma Safe.raise (h : Safe term ok members A) {n : ν} {t : ℕ} (hn : A.cur n ≤ t) :
    Safe term ok members (A.raise n t) := by
  have hg : Grows A (A.raise n t) := grows_raise hn
  refine ⟨h.toConsistent.raise hn, h.acc_le, ?acc_cur, ?pinned, ?acc_log, ?later, ?backed⟩
  case acc_cur => exact fun v t' hv => (h.acc_cur v t' hv).trans (hg.cur_le v)
  case pinned =>
    intro v hv
    rcases eq_or_ne v n with rfl | hne
    · rw [raise_cur_self] at hv ⊢
      have hle := h.acc_cur v t hv
      have heq : A.cur v = t := le_antisymm hn hle
      rw [← heq] at hv ⊢
      exact h.pinned v hv
    · rw [raise_cur_of_ne hne] at hv ⊢
      exact h.pinned v hv
  case acc_log =>
    intro v t' i ho hi
    exact (h.acc_log v t' i ho hi).imp_right hg.blocked
  case later =>
    intro t' t'' i htt hl ho
    exact (h.later t' t'' i htt hl ho).imp_right hg.blocked
  case backed =>
    intro t' hl
    obtain ⟨Q, hQ, hv⟩ := h.backed t' hl
    exact ⟨Q, hQ, fun v hvQ => (hv v hvQ).trans (hg.cur_le v)⟩

lemma Safe.grows_lead (h : Safe term ok members A) {n : ν} (es : List α)
    (hn : A.leader (A.cur n) = none ∨ A.leader (A.cur n) = some n) : Grows A (A.lead n es) where
  cur_le := fun _ => le_rfl
  hist_le := h.hist_prefix_lead hn es
  acc_le := by
    intro v t
    rcases eq_or_ne v n with rfl | hv
    · rcases eq_or_ne t (A.cur v) with rfl | ht
      · have hlen := (h.hist_prefix_lead hn es (A.cur v)).length_le
        have hacc := h.acc_le v (A.cur v)
        rw [lead_hist_self] at hlen
        rw [lead_acc_self]
        exact hacc.trans hlen
      · rw [lead_acc_of_ne (.inr ht)]
    · rw [lead_acc_of_ne (.inl hv)]
  acc_eq := by
    intro v t ht
    refine lead_acc_of_ne (not_and_or.mp ?_)
    rintro ⟨rfl, rfl⟩
    exact absurd ht (lt_irrefl _)

/-- What an earlier term owns stays in the histories of the later terms that are led, or is blocked,
also when the leader appends or is new. -/
lemma Safe.later_lead (h : Safe term ok members A) {n : ν} {es : List α}
    (hn : A.leader (A.cur n) = some n ∨ (A.leader (A.cur n) = none ∧
      ∃ Q, IsMajority members Q ∧ ∀ v ∈ Q, A.Covers term members v (A.log n) (A.cur n)))
    {t t' i : ℕ} (htt : t < t') (hl : (A.lead n es).leader t' ≠ none)
    (ho : (A.lead n es).Own term t i) :
    ((A.lead n es).hist t).take (i + 1) <+: (A.lead n es).hist t' ∨
      (A.lead n es).Blocked members t i := by
  have hg := h.grows_lead es (hn.elim Or.inr fun hq => Or.inl hq.1)
  by_cases hi : i < (A.hist t).length
  · rw [hg.take_eq hi]
    have ho' := hg.own_of_lt ho hi
    by_cases hl' : A.leader t' = none
    · -- `t'` is the term that just got its leader: its voters decide
      obtain rfl := eq_cur_of_lead_leader hl' hl
      obtain ⟨-, Q, hQ, hcov⟩ := hn.resolve_left (by rw [hl']; simp)
      rw [lead_hist_self]
      exact (prefix_or_blocked_of_covers hQ hcov htt ho').imp
        (fun hp => hp.trans (List.prefix_append _ _)) hg.blocked
    · exact (h.later t t' i htt hl' ho').imp (fun hp => hp.trans (hg.hist_le t')) hg.blocked
  · -- a new position of the leader's own term
    have ht : t = A.cur n := by
      by_contra hne
      have hlt := ho.lt_length
      rw [lead_hist_of_ne hne] at hlt
      exact hi hlt
    subst ht
    rw [lead_leader_of_ne htt.ne'] at hl
    exact .inr (hg.blocked (h.blocked_of_length_le htt hl (not_lt.mp hi)))

/-- A leader may append to its own history; a node with no leader in its term yet may start one
when a majority is covered by its log. -/
lemma Safe.lead (h : Safe term ok members A) {n : ν} {es : List α}
    (hn : A.leader (A.cur n) = some n ∨ (A.leader (A.cur n) = none ∧
      ∃ Q, IsMajority members Q ∧ ∀ v ∈ Q, A.Covers term members v (A.log n) (A.cur n)))
    (hes : ∀ e ∈ es, term e = A.cur n)
    (hok : ∀ i e, es[i]? = some e → ok ((A.log n).length + i) e) :
    Safe term ok members (A.lead n es) := by
  have hn' : A.leader (A.cur n) = none ∨ A.leader (A.cur n) = some n :=
    hn.elim Or.inr fun hq => Or.inl hq.1
  have hg := h.grows_lead es hn'
  refine ⟨h.toConsistent.lead hn' hes hok, ?acc_le, ?acc_cur, ?pinned, ?acc_log, ?later, ?backed⟩
  case acc_le =>
    intro v t
    by_cases hvt : v = n ∧ t = A.cur n
    · obtain ⟨rfl, rfl⟩ := hvt
      rw [lead_acc_self, lead_hist_self]
    · rw [lead_acc_of_ne (not_and_or.mp hvt)]
      exact (h.acc_le v t).trans (hg.hist_le t).length_le
  case acc_cur =>
    intro v t hv
    by_cases hvt : v = n ∧ t = A.cur n
    · obtain ⟨rfl, rfl⟩ := hvt
      exact le_rfl
    · rw [lead_acc_of_ne (not_and_or.mp hvt)] at hv
      exact h.acc_cur v t hv
  case pinned =>
    intro v hv
    rw [lead_cur] at hv ⊢
    rcases eq_or_ne v n with rfl | hne
    · rw [lead_hist_self, lead_acc_self, lead_log_self]
      exact ⟨List.prefix_rfl, rfl⟩
    · rw [lead_acc_of_ne (.inl hne)] at hv ⊢
      rw [lead_log_of_ne hne]
      obtain ⟨hp, hlen⟩ := h.pinned v hv
      exact ⟨hp.trans (hg.hist_le _), hlen⟩
  case acc_log =>
    intro v t i ho hi
    by_cases hvt : v = n ∧ t = A.cur n
    · obtain ⟨rfl, rfl⟩ := hvt
      rw [lead_hist_self, lead_log_self]
      exact .inl (List.take_prefix _ _)
    · rw [lead_acc_of_ne (not_and_or.mp hvt)] at hi
      have hlt : i < (A.hist t).length := hi.trans_le (h.acc_le v t)
      have hlog : A.log v <+: (A.lead n es).log v := by
        rcases eq_or_ne v n with rfl | hv
        · simp
        · simp [hv]
      rw [hg.take_eq hlt]
      exact (h.acc_log v t i (hg.own_of_lt ho hlt) hi).imp (fun hp => hp.trans hlog) hg.blocked
  case later => exact fun t t' i htt hl ho => h.later_lead hn htt hl ho
  case backed =>
    intro t hl
    by_cases hl' : A.leader t = none
    · obtain rfl := eq_cur_of_lead_leader hl' hl
      obtain ⟨-, Q, hQ, hcov⟩ := hn.resolve_left (by rw [hl']; simp)
      exact ⟨Q, hQ, fun v hv => (hcov v hv).1⟩
    · exact h.backed t hl'

lemma grows_adopt {n : ν} {t : ℕ} {L : List α}
    (hn : A.cur n ≤ t) (hacc : A.acc n t ≤ L.length) : Grows A (A.adopt n t L) where
  cur_le := by
    intro v
    rcases eq_or_ne v n with rfl | hv
    · rwa [adopt_cur_self]
    · rw [adopt_cur_of_ne hv]
  hist_le := fun _ => List.prefix_rfl
  acc_le := by
    intro v s
    by_cases hvs : v = n ∧ s = t
    · obtain ⟨rfl, rfl⟩ := hvs
      rwa [adopt_acc_self]
    · rw [adopt_acc_of_ne (not_and_or.mp hvs)]
  acc_eq := by
    intro v s hs
    refine adopt_acc_of_ne (not_and_or.mp ?_)
    rintro ⟨rfl, rfl⟩
    exact absurd (hs.trans_le hn) (lt_irrefl _)

/-- A node may move to `t` with a prefix of the history of `t` that ends in an entry of `t` and
drops nothing the node has accepted in `t`. -/
lemma Safe.adopt (h : Safe term ok members A) {n : ν} {t : ℕ} {L : List α}
    (hn : A.cur n ≤ t) (hl : A.leader t ≠ some n) (hL : L <+: A.hist t)
    (hlast : A.Own term t (L.length - 1)) (hacc : A.acc n t ≤ L.length) :
    Safe term ok members (A.adopt n t L) := by
  have hg := grows_adopt hn hacc
  refine ⟨h.toConsistent.adopt hn hl (.inr hL), ?acc_le, ?acc_cur, ?pinned, ?acc_log, ?later,
    ?backed⟩
  case acc_le =>
    intro v s
    by_cases hvs : v = n ∧ s = t
    · obtain ⟨rfl, rfl⟩ := hvs
      rw [adopt_acc_self]
      exact hL.length_le
    · rw [adopt_acc_of_ne (not_and_or.mp hvs)]
      exact h.acc_le v s
  case acc_cur =>
    intro v s hv
    by_cases hvs : v = n ∧ s = t
    · obtain ⟨rfl, rfl⟩ := hvs
      rw [adopt_cur_self]
    · rw [adopt_acc_of_ne (not_and_or.mp hvs)] at hv
      exact (h.acc_cur v s hv).trans (hg.cur_le v)
  case pinned =>
    intro v hv
    rcases eq_or_ne v n with rfl | hne
    · rw [adopt_cur_self, adopt_acc_self, adopt_log_self]
      exact ⟨hL, rfl⟩
    · rw [adopt_cur_of_ne hne, adopt_acc_of_ne (.inl hne)] at hv ⊢
      rw [adopt_log_of_ne hne]
      exact h.pinned v hv
  case acc_log =>
    intro v s i ho hi
    rcases eq_or_ne v n with rfl | hne
    · rw [adopt_log_self]
      rcases eq_or_ne s t with rfl | hs
      · -- the history of `t` itself, of which the node now holds a prefix
        rw [adopt_acc_self] at hi
        exact .inl (List.prefix_of_prefix_length_le (List.take_prefix (i + 1) (A.hist s)) hL
          (by simp; omega))
      · rw [adopt_acc_of_ne (.inr hs)] at hi
        have hst : s < t := lt_of_le_of_ne ((h.acc_cur v s (by omega)).trans hn) hs
        refine (h.later s t i hst (h.leader_ne_none hlast) ho).imp (fun hp => ?_) hg.blocked
        have hlt := h.lt_own_of_prefix hst ho hp hlast
        exact List.prefix_of_prefix_length_le hp hL (by simp; omega)
    · rw [adopt_acc_of_ne (.inl hne)] at hi
      rw [adopt_log_of_ne hne]
      exact (h.acc_log v s i ho hi).imp_right hg.blocked
  case later =>
    intro s s' i hss hls ho
    exact (h.later s s' i hss hls ho).imp_right hg.blocked
  case backed =>
    intro s hls
    obtain ⟨Q, hQ, hv⟩ := h.backed s hls
    exact ⟨Q, hQ, fun v hvQ => (hv v hvQ).trans (hg.cur_le v)⟩

end Safety

end Replication

end Raftrust.Lib
