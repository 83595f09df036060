import Raftrust.Lib.Broadcast
import Raftrust.Lib.Table
import Raftrust.Server.Watch

/-!
# Watch streams

All events go through one broadcast channel. A stream has a receiver for each of its watchers. It
polls them one after the other, each one until it has nothing more to say, and forwards the events
that match. Events are published while a poll goes on. A receiver that has fallen too far behind is
treated like one with no events.
-/

namespace Raftrust.Server

open Lib Mvcc Storage

/-! ### The hub -/

structure Watcher where
  key : Bytes
  rangeEnd : Bytes
  startRevision : ℕ
  deriving DecidableEq, Repr

/-- The watcher should receive the event. -/
def Watcher.matchesEvent (w : Watcher) (event : WatchEvent) : Bool :=
  if event.modRevision < w.startRevision then false
  else if w.rangeEnd.isEmpty then w.key = event.key
  else w.key ≤ event.key ∧ event.key < w.rangeEnd

structure WatchHub where
  sender : Broadcast WatchEvent
  watchers : AList fun _ : Int64 => Watcher
  nextId : Int64

namespace WatchHub

def new (capacity : ℕ) : WatchHub where
  sender := .new WatchEvent capacity
  watchers := ∅
  nextId := 1

/-- Publish an event to all watchers. A channel without receivers drops it, but then nobody ever
asks for it: later receivers start behind it. -/
def publish (hub : WatchHub) (event : WatchEvent) : WatchHub :=
  { hub with sender := hub.sender.send event }

/-- Create a new watcher. Returns its number and its receiver. -/
def createWatcher (hub : WatchHub) (key rangeEnd : Bytes) (startRevision : ℕ) :
    Int64 × ℕ × WatchHub :=
  let id := hub.nextId
  let watcher : Watcher := ⟨key, rangeEnd, startRevision⟩
  (id, hub.sender.subscribe,
    { hub with watchers := hub.watchers.insert id watcher, nextId := hub.nextId + 1 })

/-- Cancel a watcher. Returns whether there was one. -/
def cancelWatcher (hub : WatchHub) (id : Int64) : Bool × WatchHub :=
  ((hub.watchers.lookup id).isSome, { hub with watchers := hub.watchers.erase id })

def watcherMatches (hub : WatchHub) (watchId : Int64) (event : WatchEvent) : Bool :=
  (hub.watchers.lookup watchId).any (·.matchesEvent event)

end WatchHub

/-! ### The stream -/

/-- An event as it is sent to the client. -/
structure Event where
  eventType : WatchEventType
  kv : KeyValue
  prevKv : Option KeyValue
  deriving DecidableEq, Repr

def WatchEvent.toProto (event : WatchEvent) : Event where
  eventType := event.eventType
  kv := ⟨event.key, event.value, event.createRevision, event.modRevision, 0⟩
  prevKv := event.prevValue.map fun pv => ⟨event.key, pv, 0, 0, 0⟩

structure WatchResponse where
  watchId : Int64
  created : Bool
  canceled : Bool
  events : List Event
  deriving DecidableEq, Repr

inductive WatchRequest where
  | create (key rangeEnd : Bytes) (startRevision : ℕ)
  | cancel (watchId : Int64)

/-- The task of a stream: its watches with their receivers, the watch that is being polled if a poll
goes on, and what has been sent to the client. -/
structure WatchStream where
  activeWatches : List (Int64 × ℕ)
  polling : Option ℕ
  responses : List WatchResponse

/-- A watcher that has been created, and how many events had been published before. -/
structure Opened where
  watchId : Int64
  watcher : Watcher
  before : ℕ

/-- The hub and one stream, with a record of the watchers that it has created. On the server several
streams share the hub, and each can cancel the watchers of another; such cancels are left out. -/
structure WatchSession where
  hub : WatchHub
  stream : WatchStream
  opened : List Opened

inductive WatchStep where
  | publish (event : WatchEvent)
  | request (request : WatchRequest)
  /-- The time to the next poll is over. -/
  | tick
  /-- One call of `try_recv` in a poll. -/
  | receive

def WatchStep.isCreate : WatchStep → Bool
  | .request (.create _ _ _) => true
  | _ => false

namespace WatchSession

def new (capacity : ℕ) : WatchSession :=
  ⟨.new capacity, ⟨[], none, []⟩, []⟩

def handle (st : WatchSession) : WatchRequest → WatchSession
  | .create key rangeEnd startRevision =>
    let (watchId, receiver, hub) := st.hub.createWatcher key rangeEnd startRevision
    { hub := hub
      stream := { st.stream with
        activeWatches := st.stream.activeWatches ++ [(watchId, receiver)]
        responses := st.stream.responses ++ [⟨watchId, true, false, []⟩] }
      opened := st.opened ++
        [⟨watchId, ⟨key, rangeEnd, startRevision⟩, st.hub.sender.sent.length⟩] }
  | .cancel watchId =>
    let (canceled, hub) := st.hub.cancelWatcher watchId
    { st with
      hub := hub
      stream := { st.stream with
        activeWatches := st.stream.activeWatches.filter fun w => w.1 ≠ watchId
        responses := st.stream.responses ++ [⟨watchId, false, canceled, []⟩] } }

/-- One round of the loop over the receivers. Any error ends the polling of the receiver. -/
def receive (st : WatchSession) : WatchSession :=
  match st.stream.polling with
  | none => st
  | some i =>
    match st.stream.activeWatches[i]? with
    | none => { st with stream := { st.stream with polling := none } }
    | some (watchId, next) =>
      match st.hub.sender.tryRecv next with
      | (.ok event, next') =>
        { st with stream := { st.stream with
            activeWatches := st.stream.activeWatches.set i (watchId, next')
            responses :=
              if st.hub.watcherMatches watchId event then
                st.stream.responses ++ [⟨watchId, false, false, [event.toProto]⟩]
              else st.stream.responses } }
      | (.error _, next') =>
        { st with stream := { st.stream with
            activeWatches := st.stream.activeWatches.set i (watchId, next')
            polling := some (i + 1) } }

/-- Requests are handled between polls. -/
def step (st : WatchSession) : WatchStep → WatchSession
  | .publish event => { st with hub := st.hub.publish event }
  | .request r => if st.stream.polling = none then st.handle r else st
  | .tick =>
    if st.stream.polling = none then { st with stream := { st.stream with polling := some 0 } }
    else st
  | .receive => st.receive

/-! ### What the client gets -/

/-- The events that have been forwarded for a watcher. -/
def forwarded (st : WatchSession) (watchId : Int64) : List Event :=
  (st.stream.responses.filter fun r => r.watchId = watchId).flatMap (·.events)

/-- The client has been told that the watcher is canceled. -/
def Canceled (st : WatchSession) (watchId : Int64) : Prop :=
  ∃ r ∈ st.stream.responses, r.watchId = watchId ∧ r.canceled = true

/-- The events published since the watcher was created that match. -/
def due (st : WatchSession) (o : Opened) : List Event :=
  ((st.hub.sender.sent.drop o.before).filter o.watcher.matchesEvent).map WatchEvent.toProto

/-- The client has been told that the watcher is canceled, or the events that match have been
forwarded in order, but for those that still wait for the receiver. -/
def Delivered (st : WatchSession) (o : Opened) : Prop :=
  st.Canceled o.watchId ∨ ∃ next, (o.watchId, next) ∈ st.stream.activeWatches ∧
    st.forwarded o.watchId ++
      ((st.hub.sender.waiting next).filter o.watcher.matchesEvent).map WatchEvent.toProto = st.due o

/-- A receiver that has not read the oldest event when the channel is full is one for a watcher that
the event does not match. -/
def KeepsUp (st : WatchSession) : WatchStep → Prop
  | .publish _ => ∀ w ∈ st.stream.activeWatches,
    w.2 + st.hub.sender.capacity ≤ st.hub.sender.sent.length →
      ∀ e ∈ st.hub.sender.sent[st.hub.sender.sent.length - st.hub.sender.capacity]?,
        st.hub.watcherMatches w.1 e = false
  | _ => True

instance (st : WatchSession) : (s : WatchStep) → Decidable (st.KeepsUp s)
  | .publish _ => inferInstanceAs (Decidable (∀ w ∈ st.stream.activeWatches, _ → ∀ e ∈ _, _))
  | .request _ => .isTrue trivial
  | .tick => .isTrue trivial
  | .receive => .isTrue trivial

end WatchSession

/-! ### Bookkeeping -/

namespace WatchSession

/-- What the stream and the hub know of the watchers. -/
structure Tracked (st : WatchSession) : Prop where
  room : st.opened.length < 2 ^ 64
  nextId : st.hub.nextId = Int64.ofNat (st.opened.length + 1)
  ids : ∀ i o, st.opened[i]? = some o → o.watchId = Int64.ofNat (i + 1)
  before : ∀ o ∈ st.opened, o.before ≤ st.hub.sender.sent.length
  nodup : (st.stream.activeWatches.map Prod.fst).Nodup
  receiver : ∀ id next, (id, next) ∈ st.stream.activeWatches → next ≤ st.hub.sender.sent.length
  active : ∀ id next, (id, next) ∈ st.stream.activeWatches → ¬ st.Canceled id ∧
    ∃ o ∈ st.opened, o.watchId = id ∧ st.hub.watchers.lookup id = some o.watcher
  listed : ∀ id w, st.hub.watchers.lookup id = some w → ∃ o ∈ st.opened, o.watchId = id
  responded : ∀ r ∈ st.stream.responses, r.canceled = true ∨ r.events ≠ [] →
    ∃ o ∈ st.opened, o.watchId = r.watchId

namespace Tracked

variable {st : WatchSession} (h : st.Tracked)

include h

lemma unique {o o' : Opened} (ho : o ∈ st.opened) (ho' : o' ∈ st.opened)
    (heq : o.watchId = o'.watchId) : o = o' := by
  obtain ⟨i, hi⟩ := List.getElem?_of_mem ho
  obtain ⟨j, hj⟩ := List.getElem?_of_mem ho'
  have hroom := h.room
  have hilt := (List.getElem?_eq_some_iff.mp hi).1
  have hjlt := (List.getElem?_eq_some_iff.mp hj).1
  rw [h.ids i o hi, h.ids j o' hj] at heq
  obtain rfl := Nat.succ.inj (ofNat_int64_inj (by omega) (by omega) heq)
  exact Option.some.inj (hi.symm.trans hj)

/-- A watcher that is polled is the one that was created under its number. -/
lemma lookup {o : Opened} (ho : o ∈ st.opened) {next : ℕ}
    (hmem : (o.watchId, next) ∈ st.stream.activeWatches) :
    st.hub.watchers.lookup o.watchId = some o.watcher := by
  obtain ⟨-, o', ho', heq, hlookup⟩ := h.active _ _ hmem
  rwa [h.unique ho' ho heq] at hlookup

lemma watcherMatches {o : Opened} (ho : o ∈ st.opened) {next : ℕ}
    (hmem : (o.watchId, next) ∈ st.stream.activeWatches) (e : WatchEvent) :
    st.hub.watcherMatches o.watchId e = o.watcher.matchesEvent e := by
  rw [WatchHub.watcherMatches, h.lookup ho hmem]
  rfl

lemma next_unique {id : Int64} {next next' : ℕ} (hmem : (id, next) ∈ st.stream.activeWatches)
    (hmem' : (id, next') ∈ st.stream.activeWatches) : next = next' :=
  congrArg Prod.snd (List.inj_on_of_nodup_map h.nodup hmem hmem' rfl)

section

variable (hroom : st.opened.length + 1 < 2 ^ 64)

include hroom

lemma ne_nextId {o : Opened} (ho : o ∈ st.opened) : o.watchId ≠ st.hub.nextId := by
  obtain ⟨i, hi⟩ := List.getElem?_of_mem ho
  have hilt := (List.getElem?_eq_some_iff.mp hi).1
  intro heq
  rw [h.ids i o hi, h.nextId] at heq
  have := ofNat_int64_inj (by omega) (by omega) heq
  omega

lemma not_canceled_nextId : ¬ st.Canceled st.hub.nextId := by
  rintro ⟨r, hr, hid, hcanceled⟩
  obtain ⟨o, ho, heq⟩ := h.responded r hr (.inl hcanceled)
  exact h.ne_nextId hroom ho (heq.trans hid)

lemma forwarded_nextId : st.forwarded st.hub.nextId = [] := by
  rw [forwarded, List.flatMap_eq_nil_iff]
  intro r hr
  obtain ⟨hr, hid⟩ := List.mem_filter.mp hr
  by_contra hevents
  obtain ⟨o, ho, heq⟩ := h.responded r hr (.inr hevents)
  exact h.ne_nextId hroom ho (heq.trans (of_decide_eq_true hid))

lemma active_ne_nextId {id : Int64} {next : ℕ} (hmem : (id, next) ∈ st.stream.activeWatches) :
    id ≠ st.hub.nextId := by
  obtain ⟨-, o, ho, rfl, -⟩ := h.active id next hmem
  exact h.ne_nextId hroom ho

end

end Tracked

lemma tracked_new (capacity : ℕ) : (new capacity).Tracked where
  room := Nat.two_pow_pos 64
  nextId := rfl
  ids := by simp [new]
  before := by simp [new]
  nodup := List.nodup_nil
  receiver := by simp [new]
  active := by simp [new]
  listed := by simp [new, WatchHub.new]
  responded := by simp [new]

/-! ### One step -/

variable {st : WatchSession}

/-- More responses, none of which cancels the watcher. -/
lemma canceled_append {st' : WatchSession} {r : WatchResponse} {id : Int64}
    (hresponses : st'.stream.responses = st.stream.responses ++ [r]) :
    st'.Canceled id ↔ st.Canceled id ∨ r.watchId = id ∧ r.canceled = true := by
  simp [Canceled, hresponses, or_and_right, exists_or]

lemma forwarded_append {st' : WatchSession} {r : WatchResponse} {id : Int64}
    (hresponses : st'.stream.responses = st.stream.responses ++ [r]) :
    st'.forwarded id = st.forwarded id ++ if r.watchId = id then r.events else [] := by
  rw [forwarded, forwarded, hresponses, List.filter_append, List.flatMap_append,
    List.filter_singleton]
  split <;> simp_all

/-- Every watcher that was created is served. -/
def AllDelivered (st : WatchSession) : Prop :=
  ∀ o ∈ st.opened, st.Delivered o

section publish

lemma Tracked.publish (h : st.Tracked) (e : WatchEvent) :
    Tracked { st with hub := st.hub.publish e } where
  room := h.room
  nextId := h.nextId
  ids := h.ids
  before := fun o ho => (h.before o ho).trans (by simp [WatchHub.publish])
  nodup := h.nodup
  receiver := fun id next hmem => (h.receiver id next hmem).trans (by simp [WatchHub.publish])
  active := h.active
  listed := h.listed
  responded := h.responded

lemma due_publish (e : WatchEvent) {o : Opened} (ho : o.before ≤ st.hub.sender.sent.length) :
    due { st with hub := st.hub.publish e } o =
      st.due o ++ ([e].filter o.watcher.matchesEvent).map WatchEvent.toProto := by
  rw [due, due, WatchHub.publish, Broadcast.send_sent, List.drop_append_of_le_length ho,
    List.filter_append, List.map_append]

/-- What is forwarded and waits, after one more event. -/
lemma waiting_publish_iff (hcapacity : 0 < st.hub.sender.capacity) {next : ℕ}
    (hnext : next ≤ st.hub.sender.sent.length) (e : WatchEvent) {w : Watcher}
    {events dueEvents : List Event}
    (heq : events ++ ((st.hub.sender.waiting next).filter w.matchesEvent).map WatchEvent.toProto =
      dueEvents) :
    events ++ (((st.hub.sender.send e).waiting next).filter w.matchesEvent).map WatchEvent.toProto =
        dueEvents ++ ([e].filter w.matchesEvent).map WatchEvent.toProto ↔
      (next + st.hub.sender.capacity ≤ st.hub.sender.sent.length →
        ∀ b ∈ st.hub.sender.sent[st.hub.sender.sent.length - st.hub.sender.capacity]?,
          w.matchesEvent b = false) := by
  subst heq
  by_cases hfull : next + st.hub.sender.capacity ≤ st.hub.sender.sent.length
  · obtain ⟨b, rest, hb, hwaiting, hwaiting'⟩ := Broadcast.waiting_send_of_le hcapacity hfull e
    rw [hwaiting, hwaiting', hb, List.filter_append]
    cases hmatch : w.matchesEvent b with
    | true => simp [hfull, hmatch]
    | false => simp [hmatch]
  · rw [Broadcast.waiting_send_of_lt hnext (not_le.mp hfull)]
    simp [hfull]

lemma allDelivered_publish_iff (h : st.Tracked) (hcapacity : 0 < st.hub.sender.capacity)
    (hall : st.AllDelivered) (e : WatchEvent) :
    AllDelivered { st with hub := st.hub.publish e } ↔ st.KeepsUp (.publish e) := by
  constructor
  · rintro hall' ⟨id, next⟩ hmem hfull b hb
    obtain ⟨hnot, o, ho, rfl, -⟩ := h.active id next hmem
    rw [h.watcherMatches ho hmem]
    rcases hall o ho with hcanceled | ⟨next', hmem', heq⟩
    · exact absurd hcanceled hnot
    rcases hall' o ho with hcanceled | ⟨next'', hmem'', heq'⟩
    · exact absurd hcanceled hnot
    obtain rfl := h.next_unique hmem hmem'
    obtain rfl := h.next_unique hmem hmem''
    rw [due_publish e (h.before o ho)] at heq'
    exact (waiting_publish_iff hcapacity (h.receiver _ _ hmem) e heq).mp heq' hfull b hb
  · intro hkeeps o ho
    rcases hall o ho with hcanceled | ⟨next, hmem, heq⟩
    · exact .inl hcanceled
    · refine .inr ⟨next, hmem, ?_⟩
      rw [due_publish e (h.before o ho)]
      refine (waiting_publish_iff hcapacity (h.receiver _ _ hmem) e heq).mpr fun hfull b hb => ?_
      rw [← h.watcherMatches ho hmem]
      exact hkeeps (o.watchId, next) hmem hfull b hb

end publish

section request

variable (h : st.Tracked)

include h

lemma Tracked.create (hroom : st.opened.length + 1 < 2 ^ 64) (key rangeEnd : Bytes)
    (startRevision : ℕ) : (st.handle (.create key rangeEnd startRevision)).Tracked := by
  have hcanceled : ∀ id, (st.handle (.create key rangeEnd startRevision)).Canceled id ↔
      st.Canceled id := by
    intro id
    rw [canceled_append rfl]
    simp
  constructor
  case room =>
    simpa [handle] using hroom
  case nextId =>
    simp only [handle, WatchHub.createWatcher, h.nextId, List.length_append, List.length_singleton]
    rw [Int64.ofNat_add (st.opened.length + 1) 1]
    rfl
  case ids =>
    intro i o ho
    rcases getElem?_snoc_eq_some_iff.mp ho with hold | ⟨rfl, rfl⟩
    · exact h.ids i o hold
    · exact h.nextId
  case before =>
    intro o ho
    rcases List.mem_append.mp ho with hold | hnew
    · exact h.before o hold
    · obtain rfl := List.mem_singleton.mp hnew
      exact le_rfl
  case nodup =>
    change (List.map Prod.fst (st.stream.activeWatches ++ [(st.hub.nextId, _)])).Nodup
    rw [List.map_append, List.map_singleton, List.nodup_append]
    refine ⟨h.nodup, List.nodup_singleton _, ?_⟩
    rintro id hid _ hnew rfl
    obtain ⟨⟨_, next⟩, hmem, rfl⟩ := List.mem_map.mp hid
    exact h.active_ne_nextId hroom hmem (List.mem_singleton.mp hnew)
  case receiver =>
    intro id next hmem
    rcases List.mem_append.mp hmem with hold | hnew
    · exact h.receiver id next hold
    · obtain ⟨rfl, rfl⟩ := Prod.mk.inj (List.mem_singleton.mp hnew)
      exact le_rfl
  case active =>
    intro id next hmem
    rw [hcanceled]
    rcases List.mem_append.mp hmem with hold | hnew
    · obtain ⟨hnot, o, ho, hid, hlookup⟩ := h.active id next hold
      refine ⟨hnot, o, List.mem_append_left _ ho, hid, ?_⟩
      change (st.hub.watchers.insert st.hub.nextId _).lookup id = _
      rw [AList.lookup_insert_ne (h.active_ne_nextId hroom hold), hlookup]
    · obtain ⟨rfl, rfl⟩ := Prod.mk.inj (List.mem_singleton.mp hnew)
      exact ⟨h.not_canceled_nextId hroom, _, List.mem_append_right _ (List.mem_singleton_self _),
        rfl, AList.lookup_insert _⟩
  case listed =>
    intro id w hlookup
    change (st.hub.watchers.insert st.hub.nextId _).lookup id = _ at hlookup
    by_cases hid : id = st.hub.nextId
    · exact ⟨_, List.mem_append_right _ (List.mem_singleton_self _), hid.symm⟩
    · rw [AList.lookup_insert_ne hid] at hlookup
      obtain ⟨o, ho, heq⟩ := h.listed id w hlookup
      exact ⟨o, List.mem_append_left _ ho, heq⟩
  case responded =>
    intro r hr hsaid
    rcases List.mem_append.mp hr with hold | hnew
    · obtain ⟨o, ho, heq⟩ := h.responded r hold hsaid
      exact ⟨o, List.mem_append_left _ ho, heq⟩
    · obtain rfl := List.mem_singleton.mp hnew
      simp at hsaid

lemma Tracked.allDelivered_create (hroom : st.opened.length + 1 < 2 ^ 64)
    (hall : st.AllDelivered) (key rangeEnd : Bytes) (startRevision : ℕ) :
    (st.handle (.create key rangeEnd startRevision)).AllDelivered := by
  have hforwarded : ∀ id, (st.handle (.create key rangeEnd startRevision)).forwarded id =
      st.forwarded id := by
    intro id
    rw [forwarded_append rfl]
    simp
  intro o ho
  rcases List.mem_append.mp ho with hold | hnew
  · rcases hall o hold with hcanceled | ⟨next, hmem, heq⟩
    · exact .inl ((canceled_append rfl).mpr (.inl hcanceled))
    · refine .inr ⟨next, List.mem_append_left _ hmem, ?_⟩
      rw [hforwarded]
      exact heq
  · obtain rfl := List.mem_singleton.mp hnew
    refine .inr ⟨_, List.mem_append_right _ (List.mem_singleton_self _), ?_⟩
    rw [hforwarded]
    change st.forwarded st.hub.nextId ++
      ((st.hub.sender.waiting st.hub.sender.subscribe).filter _).map _ =
        ((st.hub.sender.sent.drop st.hub.sender.sent.length).filter _).map _
    rw [h.forwarded_nextId hroom, Broadcast.waiting_subscribe, List.drop_length]
    rfl

lemma Tracked.cancel (watchId : Int64) : (st.handle (.cancel watchId)).Tracked := by
  have hresponses : (st.handle (.cancel watchId)).stream.responses = st.stream.responses ++
    [⟨watchId, false, (st.hub.watchers.lookup watchId).isSome, []⟩] := rfl
  refine ⟨h.room, h.nextId, h.ids, h.before, ?_, ?_, ?_, ?_, ?_⟩
  · exact h.nodup.sublist (List.filter_sublist.map _)
  · intro id next hmem
    exact h.receiver id next (List.mem_of_mem_filter hmem)
  · intro id next hmem
    obtain ⟨hmem, hne⟩ := List.mem_filter.mp hmem
    have hne : id ≠ watchId := of_decide_eq_true hne
    obtain ⟨hnot, o, ho, hid, hlookup⟩ := h.active id next hmem
    rw [canceled_append hresponses]
    refine ⟨?_, o, ho, hid, ?_⟩
    · rintro (hcanceled | ⟨heq, -⟩)
      · exact hnot hcanceled
      · exact hne heq.symm
    · change (st.hub.watchers.erase watchId).lookup id = _
      rw [AList.lookup_erase_ne hne, hlookup]
  · intro id w hlookup
    change (st.hub.watchers.erase watchId).lookup id = _ at hlookup
    by_cases hid : id = watchId
    · rw [hid, AList.lookup_erase] at hlookup
      cases hlookup
    · rw [AList.lookup_erase_ne hid] at hlookup
      exact h.listed id w hlookup
  · intro r hr hsaid
    rcases List.mem_append.mp hr with hold | hnew
    · exact h.responded r hold hsaid
    · obtain rfl := List.mem_singleton.mp hnew
      have hlookup : (st.hub.watchers.lookup watchId).isSome := by simpa using hsaid
      obtain ⟨w, hw⟩ := Option.isSome_iff_exists.mp hlookup
      exact h.listed watchId w hw

lemma Tracked.allDelivered_cancel (hall : st.AllDelivered) (watchId : Int64) :
    (st.handle (.cancel watchId)).AllDelivered := by
  have hresponses : (st.handle (.cancel watchId)).stream.responses = st.stream.responses ++
    [⟨watchId, false, (st.hub.watchers.lookup watchId).isSome, []⟩] := rfl
  intro o ho
  rcases hall o ho with hcanceled | ⟨next, hmem, heq⟩
  · exact .inl ((canceled_append hresponses).mpr (.inl hcanceled))
  by_cases hid : o.watchId = watchId
  · refine .inl ((canceled_append hresponses).mpr (.inr ⟨hid.symm, ?_⟩))
    rw [← hid, h.lookup ho hmem]
    rfl
  · refine .inr ⟨next, List.mem_filter.mpr ⟨hmem, decide_eq_true hid⟩, ?_⟩
    rw [forwarded_append hresponses, if_neg (Ne.symm hid), List.append_nil]
    exact heq

end request

/-! ### Receiving -/

/-- The ways a call of `try_recv` goes: no poll goes on, or it is over; the receiver has missed
messages; it has one; it has none. -/
lemma receive_cases (st : WatchSession) :
    (∃ p, st.receive = { st with stream := { st.stream with polling := p } } ∧
      ∀ i, st.stream.polling = some i → p = none ∧ st.stream.activeWatches.length ≤ i) ∨
    ∃ i id next, st.stream.polling = some i ∧ st.stream.activeWatches[i]? = some (id, next) ∧
      ((∃ next', next < st.hub.sender.oldest ∧ next' ≤ st.hub.sender.sent.length ∧
        st.hub.sender.waiting next' = st.hub.sender.waiting next ∧
        st.receive = { st with stream := { st.stream with
          activeWatches := st.stream.activeWatches.set i (id, next')
          polling := some (i + 1) } }) ∨
      (∃ event, next + 1 ≤ st.hub.sender.sent.length ∧
        st.hub.sender.waiting next = event :: st.hub.sender.waiting (next + 1) ∧
        st.receive = { st with stream := { st.stream with
          activeWatches := st.stream.activeWatches.set i (id, next + 1)
          responses :=
            if st.hub.watcherMatches id event then
              st.stream.responses ++ [⟨id, false, false, [event.toProto]⟩]
            else st.stream.responses } }) ∨
      (st.hub.sender.waiting next = [] ∧
        st.receive = { st with stream := { st.stream with polling := some (i + 1) } })) := by
  rw [receive]
  cases hpolling : st.stream.polling with
  | none => exact .inl ⟨st.stream.polling, rfl, by simp⟩
  | some i =>
    dsimp only
    cases hwatch : st.stream.activeWatches[i]? with
    | none =>
      refine .inl ⟨none, rfl, ?_⟩
      rintro _ ⟨rfl⟩
      exact ⟨rfl, List.getElem?_eq_none_iff.mp hwatch⟩
    | some w =>
      obtain ⟨id, next⟩ := w
      refine .inr ⟨i, id, next, rfl, hwatch, ?_⟩
      rcases st.hub.sender.tryRecv_cases next with
        ⟨missed, next', hrecv, hlag, hle, hwaiting⟩ | ⟨event, hrecv, -, hle, hwaiting⟩ |
        ⟨hrecv, -, hwaiting⟩
      · exact .inl ⟨next', hlag, hle, hwaiting, by simp only [hrecv]⟩
      · exact .inr (.inl ⟨event, hle, hwaiting, by simp only [hrecv]⟩)
      · refine .inr (.inr ⟨hwaiting, ?_⟩)
        have hset : st.stream.activeWatches.set i (id, next) = st.stream.activeWatches := by
          obtain ⟨hi, hget⟩ := List.getElem?_eq_some_iff.mp hwatch
          rw [← hget, List.set_getElem_self]
        simp only [hrecv, hset]

lemma canceled_append_iff {st' : WatchSession} {rs : List WatchResponse}
    (hresponses : st'.stream.responses = st.stream.responses ++ rs)
    (hrs : ∀ r ∈ rs, r.canceled = false) (id : Int64) : st'.Canceled id ↔ st.Canceled id := by
  rw [Canceled, Canceled, hresponses]
  constructor
  · rintro ⟨r, hr, hid, hcanceled⟩
    rcases List.mem_append.mp hr with hold | hnew
    · exact ⟨r, hold, hid, hcanceled⟩
    · rw [hrs r hnew] at hcanceled
      cases hcanceled
  · rintro ⟨r, hr, hid, hcanceled⟩
    exact ⟨r, List.mem_append_left _ hr, hid, hcanceled⟩

section advance

variable {st' : WatchSession} {i : ℕ} {id : Int64} {next next' : ℕ} {rs : List WatchResponse}
  (h : st.Tracked) (hwatch : st.stream.activeWatches[i]? = some (id, next))
  (hhub : st'.hub = st.hub) (hopened : st'.opened = st.opened)
  (hactive : st'.stream.activeWatches = st.stream.activeWatches.set i (id, next'))
  (hresponses : st'.stream.responses = st.stream.responses ++ rs)
  (hrs : ∀ r ∈ rs, r.watchId = id ∧ r.canceled = false)

include h hwatch hhub hopened hactive hresponses hrs

/-- The receiver of one watch moves on, and something is said about it. -/
lemma Tracked.advance (hnext' : next' ≤ st.hub.sender.sent.length) : st'.Tracked := by
  have hold := List.mem_of_getElem? hwatch
  have hmem : ∀ {id' : Int64} {n : ℕ}, (id', n) ∈ st'.stream.activeWatches →
      ∃ m, (id', m) ∈ st.stream.activeWatches ∧ (n = m ∨ n = next') := by
    intro id' n hn
    rw [hactive, mem_set_iff hwatch _ h.nodup] at hn
    rcases hn with ⟨rfl, rfl⟩ | ⟨-, hn⟩
    · exact ⟨next, hold, .inr rfl⟩
    · exact ⟨n, hn, .inl rfl⟩
  refine ⟨?_, ?_, ?_, ?_, ?_, ?_, ?_, ?_, ?_⟩
  · exact hopened ▸ h.room
  · exact hhub ▸ hopened ▸ h.nextId
  · exact hopened ▸ h.ids
  · exact hhub ▸ hopened ▸ h.before
  · rw [hactive, map_fst_set hwatch]
    exact h.nodup
  · intro id' n hn
    rw [hhub]
    obtain ⟨m, hm, rfl | rfl⟩ := hmem hn
    · exact h.receiver id' _ hm
    · exact hnext'
  · intro id' n hn
    rw [hhub, hopened, canceled_append_iff hresponses fun r hr => (hrs r hr).2]
    obtain ⟨m, hm, -⟩ := hmem hn
    exact h.active id' m hm
  · exact hhub ▸ hopened ▸ h.listed
  · intro r hr hsaid
    rw [hresponses] at hr
    rw [hopened]
    rcases List.mem_append.mp hr with hr | hr
    · exact h.responded r hr hsaid
    · obtain ⟨-, o, ho, hid, -⟩ := h.active id next hold
      exact ⟨o, ho, hid.trans (hrs r hr).1.symm⟩

/-- A watcher stays served if what the receiver has passed is what was forwarded. -/
lemma Tracked.delivered_advance
    (hserved : rs.flatMap (·.events) ++
      ((st.hub.sender.waiting next').filter (st.hub.watcherMatches id)).map WatchEvent.toProto =
        ((st.hub.sender.waiting next).filter (st.hub.watcherMatches id)).map WatchEvent.toProto)
    (hall : st.AllDelivered) : st'.AllDelivered := by
  intro o ho
  rw [hopened] at ho
  have hdue : st'.due o = st.due o := by rw [due, due, hhub]
  rcases hall o ho with hcanceled | ⟨m, hmem, heq⟩
  · exact .inl ((canceled_append_iff hresponses (fun r hr => (hrs r hr).2) _).mpr hcanceled)
  right
  have hforwarded : st'.forwarded o.watchId =
      st.forwarded o.watchId ++ (rs.filter fun r => r.watchId = o.watchId).flatMap (·.events) := by
    rw [forwarded, forwarded, hresponses, List.filter_append, List.flatMap_append]
  by_cases hid : o.watchId = id
  · obtain rfl := h.next_unique hmem (hid ▸ List.mem_of_getElem? hwatch)
    refine ⟨next', ?_, ?_⟩
    · rw [hactive, mem_set_iff hwatch _ h.nodup]
      exact .inl ⟨hid, rfl⟩
    · have hmatches : st.hub.watcherMatches id = o.watcher.matchesEvent := by
        funext e
        rw [← hid, h.watcherMatches ho hmem]
      have hfilter : (rs.filter fun r => r.watchId = o.watchId) = rs := by
        rw [List.filter_eq_self]
        intro r hr
        exact decide_eq_true ((hrs r hr).1.trans hid.symm)
      rw [hforwarded, hfilter, hdue, ← heq, hhub, List.append_assoc, ← hmatches, hserved]
  · refine ⟨m, ?_, ?_⟩
    · rw [hactive, mem_set_iff hwatch _ h.nodup]
      exact .inr ⟨hid, hmem⟩
    · have hfilter : (rs.filter fun r => r.watchId = o.watchId) = [] := by
        rw [List.filter_eq_nil_iff]
        intro r hr hdec
        exact hid ((of_decide_eq_true hdec).symm.trans (hrs r hr).1)
      rw [hforwarded, hfilter, hdue, ← heq, hhub, List.flatMap_nil, List.append_nil]

end advance

lemma Tracked.receive (h : st.Tracked) : st.receive.Tracked := by
  rcases st.receive_cases with ⟨p, hreceive, -⟩ | ⟨i, id, next, -, hwatch, hcases⟩
  · rw [hreceive]
    exact ⟨h.room, h.nextId, h.ids, h.before, h.nodup, h.receiver, h.active, h.listed, h.responded⟩
  rcases hcases with ⟨next', -, hle, -, hreceive⟩ | ⟨event, hle, -, hreceive⟩ | ⟨-, hreceive⟩
  · rw [hreceive]
    exact h.advance hwatch rfl rfl rfl (List.append_nil _).symm (by simp) hle
  · rw [hreceive]
    split
    · exact h.advance hwatch rfl rfl rfl rfl (by simp) hle
    · exact h.advance hwatch rfl rfl rfl (List.append_nil _).symm (by simp) hle
  · rw [hreceive]
    exact ⟨h.room, h.nextId, h.ids, h.before, h.nodup, h.receiver, h.active, h.listed, h.responded⟩

lemma Tracked.allDelivered_receive (h : st.Tracked) (hall : st.AllDelivered) :
    st.receive.AllDelivered := by
  rcases st.receive_cases with ⟨p, hreceive, -⟩ | ⟨i, id, next, -, hwatch, hcases⟩
  · rw [hreceive]
    exact hall
  rcases hcases with ⟨next', -, -, hwaiting, hreceive⟩ | ⟨event, -, hwaiting, hreceive⟩ |
    ⟨-, hreceive⟩
  · rw [hreceive]
    refine h.delivered_advance hwatch rfl rfl rfl (List.append_nil _).symm (by simp) ?_ hall
    rw [hwaiting]
    rfl
  · rw [hreceive]
    split
    · next hmatch =>
      refine h.delivered_advance hwatch rfl rfl rfl rfl (by simp) ?_ hall
      simp [hwaiting, hmatch]
    · next hmatch =>
      refine h.delivered_advance hwatch rfl rfl rfl (List.append_nil _).symm (by simp) ?_ hall
      simp [hwaiting, hmatch]
  · rw [hreceive]
    exact hall

end WatchSession

end Raftrust.Server
