import Raftrust.Server.WatchStream

/-!
# Delivery of watch events

Publishing an event takes the oldest one away from a receiver that is as far behind as the channel
is long. Every other step of a stream keeps what is forwarded and what waits for the receivers
together equal to what was published. So nothing is lost as long as the receivers keep up; what is
lost otherwise is lost without notice.
-/

namespace Raftrust.Server

open Lib Mvcc Storage

namespace WatchSession

variable {st : WatchSession}

/-! ### Polls -/

/-- A receiver that has not fallen behind is read to its end. -/
lemma exists_drain {i : ℕ} {id : Int64} {next : ℕ} (hpolling : st.stream.polling = some i)
    (hwatch : st.stream.activeWatches[i]? = some (id, next))
    (hnext : next ≤ st.hub.sender.sent.length) (hfresh : st.hub.sender.oldest ≤ next) :
    ∃ n, let st' := run step st (List.replicate n .receive)
      st'.hub = st.hub ∧ st'.opened = st.opened ∧ st'.stream.polling = some (i + 1) ∧
        st'.stream.activeWatches =
          st.stream.activeWatches.set i (id, st.hub.sender.sent.length) := by
  induction hk : st.hub.sender.sent.length - next using Nat.strong_induction_on
    generalizing st next with
  | _ k ih =>
    rcases st.receive_cases with ⟨p, -, hend⟩ | ⟨j, id', next', hj, hwatch', hcases⟩
    · have hlt := (List.getElem?_eq_some_iff.mp hwatch).1
      exact absurd (hend i hpolling).2 (not_le.mpr hlt)
    obtain rfl := Option.some.inj (hpolling.symm.trans hj)
    obtain ⟨rfl, rfl⟩ := Prod.mk.inj (Option.some.inj (hwatch.symm.trans hwatch'))
    rcases hcases with ⟨_, hlag, -⟩ | ⟨event, hle, -, hreceive⟩ | ⟨hwaiting, hreceive⟩
    · exact absurd hlag (not_lt.mpr hfresh)
    · have hi := (List.getElem?_eq_some_iff.mp hwatch).1
      have hhub : st.receive.hub = st.hub := by rw [hreceive]
      have hopened : st.receive.opened = st.opened := by rw [hreceive]
      have hactive : st.receive.stream.activeWatches =
        st.stream.activeWatches.set i (id, next + 1) := by rw [hreceive]
      have hpolling₁ : st.receive.stream.polling = some i := by rw [hreceive]; exact hpolling
      have hwatch₁ : st.receive.stream.activeWatches[i]? = some (id, next + 1) := by
        rw [hactive]
        exact List.getElem?_set_self hi
      obtain ⟨n, hhub', hopened', hpolling', hactive'⟩ :=
        ih (st.hub.sender.sent.length - (next + 1)) (by omega) hpolling₁ hwatch₁ (hhub ▸ hle)
          (hhub ▸ hfresh.trans (Nat.le_succ next)) (by rw [hhub])
      refine ⟨n + 1, hhub'.trans hhub, hopened'.trans hopened, hpolling', ?_⟩
      rw [hactive, hhub, List.set_set] at hactive'
      exact hactive'
    · have hend := le_antisymm hnext ((Broadcast.waiting_eq_nil_iff hfresh).mp hwaiting)
      have hset : st.stream.activeWatches.set i (id, st.hub.sender.sent.length) =
          st.stream.activeWatches := by
        obtain ⟨hi, hget⟩ := List.getElem?_eq_some_iff.mp hwatch
        rw [← hend, ← hget, List.set_getElem_self]
      refine ⟨1, ?_⟩
      change st.receive.hub = _ ∧ st.receive.opened = _ ∧ st.receive.stream.polling = _ ∧
        st.receive.stream.activeWatches = _
      rw [hreceive, hset]
      exact ⟨rfl, rfl, rfl, rfl⟩

/-- No receiver has fallen behind, and those before the given place are at the end. -/
structure ReadBefore (st : WatchSession) (i : ℕ) : Prop where
  receiver : ∀ w ∈ st.stream.activeWatches, w.2 ≤ st.hub.sender.sent.length
  fresh : ∀ w ∈ st.stream.activeWatches, st.hub.sender.oldest ≤ w.2
  done : ∀ j < i, ∀ w ∈ st.stream.activeWatches[j]?, w.2 = st.hub.sender.sent.length

/-- One more receiver has been read to its end. -/
lemma ReadBefore.set {st' : WatchSession} {i : ℕ} {id : Int64} {next : ℕ} (h : st.ReadBefore i)
    (hwatch : st.stream.activeWatches[i]? = some (id, next)) (hhub : st'.hub = st.hub)
    (hactive : st'.stream.activeWatches =
      st.stream.activeWatches.set i (id, st.hub.sender.sent.length)) :
    st'.ReadBefore (i + 1) := by
  have hmem : ∀ w ∈ st'.stream.activeWatches,
      w ∈ st.stream.activeWatches ∨ w = (id, st.hub.sender.sent.length) := by
    rw [hactive]
    intro w hw
    exact List.mem_or_eq_of_mem_set hw
  refine ⟨?_, ?_, ?_⟩
  · rw [hhub]
    intro w hw
    rcases hmem w hw with hold | rfl
    · exact h.receiver w hold
    · exact le_rfl
  · rw [hhub]
    intro w hw
    rcases hmem w hw with hold | rfl
    · exact h.fresh w hold
    · exact Nat.sub_le _ _
  · rw [hactive, hhub]
    intro j hj w hw
    rcases (Nat.lt_succ_iff_lt_or_eq.mp hj) with hlt | rfl
    · rw [List.getElem?_set_ne hlt.ne'] at hw
      exact h.done j hlt w hw
    · rw [List.getElem?_set_self (List.getElem?_eq_some_iff.mp hwatch).1] at hw
      exact congrArg Prod.snd (Option.some.inj hw).symm

/-- A poll during which nothing is published reads all receivers to their ends, if none of them has
fallen behind. -/
lemma exists_poll {i : ℕ} (hpolling : st.stream.polling = some i) (h : st.ReadBefore i) :
    ∃ n, let st' := run step st (List.replicate n .receive)
      st'.hub = st.hub ∧ st'.opened = st.opened ∧ st'.stream.polling = none ∧
        ∀ w ∈ st'.stream.activeWatches, w.2 = st.hub.sender.sent.length := by
  induction hk : st.stream.activeWatches.length - i generalizing st i with
  | zero =>
    refine ⟨1, ?_⟩
    change st.receive.hub = _ ∧ st.receive.opened = _ ∧ st.receive.stream.polling = _ ∧
      ∀ w ∈ st.receive.stream.activeWatches, _
    have hend : st.stream.activeWatches[i]? = none := List.getElem?_eq_none_iff.mpr (by omega)
    have hreceive : st.receive = { st with stream := { st.stream with polling := none } } := by
      rw [receive, hpolling]
      simp only [hend]
    rw [hreceive]
    refine ⟨rfl, rfl, rfl, fun w hw => ?_⟩
    have hw : w ∈ st.stream.activeWatches := hw
    obtain ⟨j, hj⟩ := List.getElem?_of_mem hw
    exact h.done j (by have := (List.getElem?_eq_some_iff.mp hj).1; omega) w hj
  | succ k ih =>
    obtain ⟨⟨id, next⟩, hwatch⟩ : ∃ w, st.stream.activeWatches[i]? = some w :=
      ⟨_, List.getElem?_eq_getElem (by omega)⟩
    have hmem := List.mem_of_getElem? hwatch
    obtain ⟨n, hhub, hopened, hpolling', hactive⟩ :=
      exists_drain hpolling hwatch (h.receiver _ hmem) (h.fresh _ hmem)
    obtain ⟨m, hhub', hopened', hend, hall⟩ := ih hpolling' (h.set hwatch hhub hactive) (by
      rw [hactive, List.length_set]
      omega)
    refine ⟨n + m, ?_⟩
    rw [List.replicate_add, run_append]
    exact ⟨hhub'.trans hhub, hopened'.trans hopened, hend, hhub ▸ hall⟩

/-! ### Runs -/

lemma Tracked.step (h : st.Tracked) {s : WatchStep}
    (hroom : s.isCreate → st.opened.length + 1 < 2 ^ 64) : (st.step s).Tracked := by
  cases s with
  | publish e => exact h.publish e
  | receive => exact h.receive
  | tick =>
    rw [WatchSession.step]
    split
    · exact ⟨h.room, h.nextId, h.ids, h.before, h.nodup, h.receiver, h.active, h.listed,
        h.responded⟩
    · exact h
  | request r =>
    rw [WatchSession.step]
    split
    · cases r with
      | create key rangeEnd startRevision => exact h.create (hroom rfl) key rangeEnd startRevision
      | cancel watchId => exact h.cancel watchId
    · exact h

/-- Only a publication can take something from a watcher. -/
lemma Tracked.allDelivered_step_iff (h : st.Tracked) (hcapacity : 0 < st.hub.sender.capacity)
    (hall : st.AllDelivered) {s : WatchStep}
    (hroom : s.isCreate → st.opened.length + 1 < 2 ^ 64) :
    (st.step s).AllDelivered ↔ st.KeepsUp s := by
  cases s with
  | publish e => exact allDelivered_publish_iff h hcapacity hall e
  | receive => exact iff_of_true (h.allDelivered_receive hall) trivial
  | tick =>
    refine iff_of_true ?_ trivial
    rw [WatchSession.step]
    split
    · exact hall
    · exact hall
  | request r =>
    refine iff_of_true ?_ trivial
    rw [WatchSession.step]
    split
    · cases r with
      | create key rangeEnd startRevision =>
        exact h.allDelivered_create (hroom rfl) hall key rangeEnd startRevision
      | cancel watchId => exact h.allDelivered_cancel hall watchId
    · exact hall

/-- A step leaves the capacity as it is, and opens one watcher at most. -/
lemma step_frame (st : WatchSession) (s : WatchStep) :
    (st.step s).hub.sender.capacity = st.hub.sender.capacity ∧
      (st.step s).opened.length ≤ st.opened.length + if s.isCreate then 1 else 0 := by
  cases s with
  | publish e => exact ⟨rfl, le_rfl⟩
  | receive =>
    rw [WatchSession.step]
    rcases st.receive_cases with ⟨p, hreceive, -⟩ | ⟨i, id, next, -, -, hcases⟩
    · rw [hreceive]
      exact ⟨rfl, le_rfl⟩
    rcases hcases with ⟨_, -, -, -, hreceive⟩ | ⟨_, -, -, hreceive⟩ | ⟨-, hreceive⟩
    all_goals
      rw [hreceive]
      exact ⟨rfl, le_rfl⟩
  | tick =>
    rw [WatchSession.step]
    split
    all_goals exact ⟨rfl, le_rfl⟩
  | request r =>
    rw [WatchSession.step]
    split
    · cases r with
      | create key rangeEnd startRevision =>
        exact ⟨rfl, by simp [handle, WatchStep.isCreate]⟩
      | cancel watchId => exact ⟨rfl, le_rfl⟩
    · exact ⟨rfl, Nat.le_add_right _ _⟩

/-- Bookkeeping holds at every moment, as long as there are numbers for the watchers. -/
lemma tracked_run (capacity : ℕ) {steps : List WatchStep}
    (hroom : steps.countP WatchStep.isCreate < 2 ^ 64) :
    let st := run step (new capacity) steps
    st.Tracked ∧ st.hub.sender.capacity = capacity ∧
      st.opened.length ≤ steps.countP WatchStep.isCreate := by
  induction steps using List.reverseRecOn with
  | nil => exact ⟨tracked_new capacity, rfl, le_rfl⟩
  | append_singleton steps s ih =>
    have hcount : (steps ++ [s]).countP WatchStep.isCreate =
        steps.countP WatchStep.isCreate + if s.isCreate then 1 else 0 := by
      simp [List.countP_append, List.countP_singleton]
    rw [hcount] at hroom ⊢
    obtain ⟨htracked, hcapacity, hlength⟩ := ih (by omega)
    obtain ⟨hcapacity', hlength'⟩ := step_frame (run step (new capacity) steps) s
    rw [run_snoc]
    refine ⟨htracked.step fun hcreate => ?_, hcapacity'.trans hcapacity, by omega⟩
    rw [if_pos hcreate] at hroom
    omega

lemma allDelivered_run_receive (h : st.Tracked) (hall : st.AllDelivered) (n : ℕ) :
    (run step st (List.replicate n .receive)).AllDelivered := by
  induction n generalizing st with
  | zero => exact hall
  | succ n ih => exact ih h.receive (h.allDelivered_receive hall)

/-- **No event is lost without notice** as long as no receiver loses an event that its watcher
matches: in every run, at every moment, the events that match have been forwarded in order and once
each, or wait for the receiver, or the watcher is canceled, exactly if the receivers keep up. A poll
that goes on for long enough with no publication in between then forwards all of them. -/
theorem delivered_iff_keepsUp {capacity : ℕ} (hcapacity : 0 < capacity) {steps : List WatchStep}
    (hroom : steps.countP WatchStep.isCreate < 2 ^ 64) :
    ((∀ steps', steps' <+: steps → ∀ o ∈ (run step (new capacity) steps').opened,
        (run step (new capacity) steps').Delivered o) ↔
      Along step KeepsUp (new capacity) steps) ∧
    (Along step KeepsUp (new capacity) steps →
      let st := run step (new capacity) steps
      st.stream.polling = none →
      (∀ w ∈ st.stream.activeWatches, st.hub.sender.sent.length ≤ w.2 + capacity) →
      ∃ n, let st' := run step st (.tick :: List.replicate n .receive)
        st'.stream.polling = none ∧ ∀ o ∈ st'.opened,
          st'.Canceled o.watchId ∨ st'.forwarded o.watchId = st'.due o) := by
  have hiff : (∀ steps', steps' <+: steps → (run step (new capacity) steps').AllDelivered) ↔
      Along step KeepsUp (new capacity) steps := by
    refine forall_isPrefix_iff_along step
      (fun steps' => (run step (new capacity) steps').AllDelivered) (by simp [AllDelivered, new]) ?_
    intro steps' s hp hall
    have hcount : (steps' ++ [s]).countP WatchStep.isCreate ≤ steps.countP WatchStep.isCreate :=
      hp.sublist.countP_le
    rw [List.countP_append, List.countP_singleton] at hcount
    have hroom' : steps'.countP WatchStep.isCreate < 2 ^ 64 := by omega
    obtain ⟨htracked, hcap, hlength⟩ := tracked_run capacity hroom'
    rw [run_snoc]
    refine htracked.allDelivered_step_iff (by rwa [hcap]) hall fun hcreate => ?_
    rw [if_pos hcreate] at hcount
    omega
  refine ⟨hiff, ?_⟩
  intro halong st hidle hfresh
  obtain ⟨htracked, hcap, -⟩ := tracked_run capacity hroom
  have hall := hiff.mpr halong steps List.prefix_rfl
  -- the state in which the poll starts
  have htick : st.step .tick = { st with stream := { st.stream with polling := some 0 } } :=
    if_pos hidle
  have htracked₁ : (st.step .tick).Tracked := htracked.step (by rintro ⟨⟩)
  have hall₁ : (st.step .tick).AllDelivered :=
    (htracked.allDelivered_step_iff (by rwa [hcap]) hall (by rintro ⟨⟩)).mpr trivial
  have hpolling : (st.step .tick).stream.polling = some 0 := by rw [htick]
  have hfresh₁ : ∀ w ∈ (st.step .tick).stream.activeWatches,
      (st.step .tick).hub.sender.oldest ≤ w.2 := by
    rw [htick]
    intro w hw
    rw [Broadcast.oldest, hcap]
    exact Nat.sub_le_iff_le_add.mpr (hfresh w hw)
  obtain ⟨n, hhub, hopened, hend, hread⟩ := exists_poll hpolling
    ⟨fun w hw => htracked₁.receiver w.1 w.2 hw, hfresh₁, by simp⟩
  refine ⟨n, hend, fun o ho => ?_⟩
  rcases allDelivered_run_receive htracked₁ hall₁ n o ho with hcanceled | ⟨next, hmem, heq⟩
  · exact .inl hcanceled
  · have hnext : next = (st.step .tick).hub.sender.subscribe := hread _ hmem
    rw [hhub, hnext, Broadcast.waiting_subscribe] at heq
    exact .inr (by simpa using heq)

/-- The put of a key at a revision. -/
def putAt (revision : ℕ) : WatchEvent :=
  ⟨.put, [0x6B], [1], revision, revision, none⟩

/-- Of two receivers one reads along. The other one falls behind, but its watcher is for another
key. -/
theorem delivered_iff_keepsUp_twoWatchers :
    let steps : List WatchStep := [.request (.create [0x6B] [] 0), .request (.create [0x6C] [] 0),
      .publish (putAt 1), .publish (putAt 2), .tick, .receive, .receive, .publish (putAt 3),
      .receive, .receive]
    steps.countP WatchStep.isCreate < 2 ^ 64 ∧ Along step KeepsUp (new 2) steps ∧
      (run step (new 2) steps).forwarded 1 = [putAt 1, putAt 2, putAt 3].map WatchEvent.toProto ∧
      ∀ o ∈ (run step (new 2) steps).opened, (run step (new 2) steps).Delivered o := by
  intro steps
  have hroom : steps.countP WatchStep.isCreate < 2 ^ 64 := by decide
  have hkeeps : Along step KeepsUp (new 2) steps := by decide +kernel
  refine ⟨hroom, hkeeps, by decide +kernel, ?_⟩
  exact (delivered_iff_keepsUp (by decide) hroom).1.mpr hkeeps steps List.prefix_rfl

/-- Three events are published before the first poll of a channel for two. That poll ends with an
error, and the next one forwards the last two events. The first is lost, and the client is not told.
-/
theorem lagged_event_lost :
    let steps : List WatchStep := [.request (.create [0x6B] [] 0), .publish (putAt 1),
      .publish (putAt 2), .publish (putAt 3), .tick, .receive, .receive, .tick, .receive, .receive,
      .receive, .receive]
    let st := run step (new 2) steps
    st.stream.polling = none ∧ st.stream.activeWatches = [(1, 3)] ∧
      st.stream.responses = [⟨1, true, false, []⟩, ⟨1, false, false, [(putAt 2).toProto]⟩,
        ⟨1, false, false, [(putAt 3).toProto]⟩] ∧
      ∃ o ∈ st.opened, o.watchId = 1 ∧
        st.due o = [putAt 1, putAt 2, putAt 3].map WatchEvent.toProto ∧ ¬ st.Delivered o := by
  intro steps st
  have hresponses : st.stream.responses = [⟨1, true, false, []⟩,
      ⟨1, false, false, [(putAt 2).toProto]⟩, ⟨1, false, false, [(putAt 3).toProto]⟩] := by
    decide +kernel
  have hactive : st.stream.activeWatches = [(1, 3)] := by decide +kernel
  have hopened : st.opened = [⟨1, ⟨[0x6B], [], 0⟩, 0⟩] := rfl
  have hdue : st.due ⟨1, ⟨[0x6B], [], 0⟩, 0⟩ =
      [putAt 1, putAt 2, putAt 3].map WatchEvent.toProto := by decide +kernel
  refine ⟨by decide +kernel, hactive, hresponses, _, ?_, rfl, hdue, ?_⟩
  · rw [hopened]
    exact List.mem_singleton_self _
  rintro (⟨r, hr, -, hcanceled⟩ | ⟨next, hmem, heq⟩)
  · rw [hresponses] at hr
    simp only [List.mem_cons, List.not_mem_nil, or_false] at hr
    rcases hr with rfl | rfl | rfl
    all_goals cases hcanceled
  · rw [hactive] at hmem
    obtain ⟨-, rfl⟩ := Prod.mk.inj (List.mem_singleton.mp hmem)
    rw [hdue] at heq
    exact absurd heq (by decide +kernel)

end WatchSession

end Raftrust.Server
