import IocpEcho.EventBase
import Mathlib.Algebra.BigOperators.Group.Finset.Piecewise

/-!
# The Queues agree with the Flags

The flags of an event say in which queues it is. `Queues.Wf` says that they are right: every
queue has each of its events once, and exactly the events whose flag is set; the heap of the
timeouts is in order; and the two counters of the event base count what is queued.

Entering an event into a queue and removing it keep this up, and do nothing else to the events
than to set or to clear one flag, up to the indices in the heap (`Events.plain`).

## Main results

* `Queues.Wf.insert_inserted`, `Queues.Wf.insert_active`, `Queues.Wf.insert_timeout`:
  `event_queue_insert`, one queue after the other.
* `Queues.Wf.remove_inserted`, `Queues.Wf.remove_active`, `Queues.Wf.remove_timeout`:
  `event_queue_remove`.
-/

namespace IocpEcho

namespace EventLoop

open Heaps Finset

/-! ### Lists without repetition -/

/-- The list has every element with the property once, and no others. -/
def Listed (l : List EventPtr) (P : EventPtr → Prop) : Prop := l.Nodup ∧ ∀ e, e ∈ l ↔ P e

theorem Listed.congr {l : List EventPtr} {P Q : EventPtr → Prop} (h : Listed l P)
    (hPQ : ∀ e, Q e ↔ P e) : Listed l Q :=
  ⟨h.1, fun e => (h.2 e).trans (hPQ e).symm⟩

theorem Listed.append {l : List EventPtr} {P Q : EventPtr → Prop} {ev : EventPtr}
    (h : Listed l P) (hev : ¬ P ev) (hQ : ∀ e, Q e ↔ e = ev ∨ P e) : Listed (l ++ [ev]) Q := by
  refine ⟨List.nodup_append.mpr ⟨h.1, List.nodup_singleton ev, fun a ha e he heq => ?_⟩,
    fun e => ?_⟩
  · rw [List.mem_singleton.mp he] at heq
    exact hev (heq ▸ (h.2 a).mp ha)
  · rw [List.mem_append, List.mem_singleton, h.2, hQ]
    exact or_comm

theorem Listed.erase {l : List EventPtr} {P Q : EventPtr → Prop} {ev : EventPtr}
    (h : Listed l P) (hQ : ∀ e, Q e ↔ e ≠ ev ∧ P e) : Listed (l.erase ev) Q := by
  refine ⟨h.1.erase ev, fun e => ?_⟩
  rw [h.1.mem_erase_iff, h.2, hQ]

theorem countP_append_singleton (p : EventPtr → Bool) (l : List EventPtr) (ev : EventPtr) :
    (l ++ [ev]).countP p = l.countP p + if p ev then 1 else 0 := by
  rw [List.countP_append, List.countP_singleton]

theorem countP_erase_add {p : EventPtr → Bool} {l : List EventPtr} {ev : EventPtr} (h : ev ∈ l) :
    ((l.erase ev).countP p + if p ev then 1 else 0) = l.countP p := by
  rw [(List.perm_cons_erase h).countP_eq, List.countP_cons]

/-- One of the summands changes. -/
theorem sum_range_update {n p : ℕ} (hp : p < n) (f : List EventPtr → ℕ)
    (qs : ℕ → List EventPtr) (l : List EventPtr) :
    (∑ i ∈ range n, f (Function.update qs p l i)) + f (qs p) = (∑ i ∈ range n, f (qs i)) + f l := by
  have hmem : p ∈ range n := mem_range.mpr hp
  simp only [Function.apply_update fun _ => f]
  rw [sum_update_of_mem hmem, ← add_sum_erase _ _ hmem, sdiff_singleton_eq_erase]
  omega

/-! ### What the indices in the heap do not matter for -/

/-- The events without their indices in the heap. -/
def Events.plain (m : Events) : Events := m.withIdx fun _ => 0

theorem Events.evFlags_of_plain {m m' : Events} (h : m.plain = m'.plain) (e : EventPtr) :
    (m e).evFlags = (m' e).evFlags := by
  change (m.plain e).evFlags = (m'.plain e).evFlags
  rw [h]

theorem Events.evTimeout_of_plain {m m' : Events} (h : m.plain = m'.plain) (e : EventPtr) :
    (m e).evTimeout = (m' e).evTimeout := by
  change (m.plain e).evTimeout = (m'.plain e).evTimeout
  rw [h]

/-- What no operation of the event base changes of an event that is assigned. -/
structure Kind where
  evFd : Socket
  evEvents : What
  evPri : ℕ
  evClosure : Closure
  evCallback : Callback
  internal : Bool
  deriving DecidableEq

def Event.kind (e : Event) : Kind :=
  ⟨e.evFd, e.evEvents, e.evPri, e.evClosure, e.evCallback, e.evFlags.internal⟩

/-- The events keep their kind. -/
def SameKind (m m' : Events) : Prop := ∀ e, (m' e).kind = (m e).kind

theorem SameKind.refl (m : Events) : SameKind m m := fun _ => rfl

theorem SameKind.trans {m m' m'' : Events} (h : SameKind m m') (h' : SameKind m' m'') :
    SameKind m m'' :=
  fun e => (h' e).trans (h e)

theorem SameKind.of_plain {m m' : Events} (h : m'.plain = m.plain) : SameKind m m' := by
  intro e
  change (m'.plain e).kind = (m.plain e).kind
  rw [h]

/-- What a change of one event leaves of it, it leaves of all events. -/
theorem Events.update_eq {α : Type} (g : Event → α) {m : Events} {ev : EventPtr} {x : Event}
    (h : g x = g (m ev)) (e : EventPtr) : g (Function.update m ev x e) = g (m e) := by
  by_cases he : e = ev
  · rw [he, Function.update_self, h]
  · rw [Function.update_of_ne he]

/-- One event changes, and keeps its kind. -/
theorem SameKind.update {m : Events} {ev : EventPtr} {x : Event} (h : x.kind = (m ev).kind) :
    SameKind m (Function.update m ev x) :=
  Events.update_eq Event.kind h

/-- The events that count. -/
def external (m : Events) (e : EventPtr) : Bool := !(m e).evFlags.internal

theorem SameKind.external_eq {m m' : Events} (h : SameKind m m') : external m' = external m :=
  funext fun e => congrArg (!·) (congrArg Kind.internal (h e))

namespace Queues

/-! ### Queues and flags -/

/-- How many of the queued events count, an event being counted once for every queue. -/
def queuedCount (q : Queues) : ℕ :=
  q.eventqueue.countP (external q.events) +
    (∑ i ∈ range q.nactivequeues, (q.activequeues i).countP (external q.events)) +
    ((slots q.timeheap q.events).elems q.timeheap.n).countP (external q.events)

/-- The queues and the heap have exactly the events whose flags say so, and the counters count
them. -/
structure Wf (q : Queues) : Prop where
  heap : q.timeheap.Wf q.events { e | (q.events e).evFlags.timeout = true }
  inserted : Listed q.eventqueue fun e => (q.events e).evFlags.inserted = true
  active : ∀ i, Listed (q.activequeues i) fun e =>
    (q.events e).evFlags.active = true ∧ (q.events e).evPri = i
  bound : ∀ i, q.nactivequeues ≤ i → q.activequeues i = []
  eventCount : q.eventCount = q.queuedCount
  eventCountActive : q.eventCountActive =
    (∑ i ∈ range q.nactivequeues, (q.activequeues i).length : ℕ)

section Wf

variable {q : Queues} {ev : EventPtr}

@[simp] theorem modify_events (f : Event → Event) :
    (q.modify ev f).events = Function.update q.events ev (f (q.events ev)) := rfl

/-- A change of the events that concerns no queue, and leaves the heap in order. -/
theorem Wf.congr_heap (h : q.Wf) {m : Events} (hflags : ∀ e, (m e).evFlags = (q.events e).evFlags)
    (hpri : ∀ e, (m e).evPri = (q.events e).evPri)
    (hidx : ∀ e, (m e).minHeapIdx = (q.events e).minHeapIdx)
    (hheap : q.timeheap.Wf m { e | (m e).evFlags.timeout = true }) :
    ({ q with events := m } : Queues).Wf := by
  have hext : external m = external q.events := funext fun e => by rw [external, external, hflags]
  have hslots : slots q.timeheap m = slots q.timeheap q.events :=
    congrArg (Slots.mk q.timeheap.p) (funext hidx)
  refine ⟨hheap, h.inserted.congr fun e => ?_, fun i => (h.active i).congr fun e => ?_, h.bound, ?_,
    h.eventCountActive⟩
  · dsimp only
    rw [hflags]
  · dsimp only
    rw [hflags, hpri]
  · have hcount := h.eventCount
    simp only [queuedCount, hext, hslots] at hcount ⊢
    exact hcount

/-- A change of the events that concerns neither queues nor heap. -/
theorem Wf.congr (h : q.Wf) {m : Events} (hflags : ∀ e, (m e).evFlags = (q.events e).evFlags)
    (hpri : ∀ e, (m e).evPri = (q.events e).evPri)
    (hidx : ∀ e, (m e).minHeapIdx = (q.events e).minHeapIdx)
    (htimeout : ∀ e, (q.events e).evFlags.timeout = true →
      (m e).evTimeout = (q.events e).evTimeout) : ({ q with events := m } : Queues).Wf :=
  h.congr_heap hflags hpri hidx (h.heap.congr (by simp only [hflags]) hidx htimeout)

/-- One event changes in what concerns neither queues nor heap. -/
theorem Wf.modify (h : q.Wf) {f : Event → Event}
    (hf : ∀ e, (f e).evFlags = e.evFlags ∧ (f e).evPri = e.evPri ∧ (f e).minHeapIdx = e.minHeapIdx)
    (htimeout : (q.events ev).evFlags.timeout = true →
      (f (q.events ev)).evTimeout = (q.events ev).evTimeout) : (q.modify ev f).Wf := by
  refine h.congr (Events.update_eq _ (hf _).1) (Events.update_eq _ (hf _).2.1)
    (Events.update_eq _ (hf _).2.2) fun e he => ?_
  by_cases hev : e = ev
  · subst hev
    rw [Function.update_self]
    exact htimeout he
  · rw [Function.update_of_ne hev]

theorem count_eq (d : ℤ) : q.count ev d =
    { q with eventCount := q.eventCount + if external q.events ev then d else 0 } := by
  unfold count external
  cases (q.events ev).evFlags.internal <;> simp

/-- The events with a flag set or cleared. -/
def flagged (q : Queues) (ev : EventPtr) (queue : Queue) (v : Bool) : Events :=
  (q.setFlag ev queue v).events

theorem flagged_sameKind (queue : Queue) (v : Bool) : SameKind q.events (q.flagged ev queue v) :=
  SameKind.update (by cases queue <;> rfl)

/-- Setting or clearing a flag leaves what does not depend on it. -/
theorem flagged_eq {α : Type} (g : Event → α) (queue : Queue) (v : Bool)
    (h : ∀ e : Event, g { e with evFlags := e.evFlags.set v queue } = g e) (e : EventPtr) :
    g (q.flagged ev queue v e) = g (q.events e) :=
  Events.update_eq g (h _) e

theorem flagged_self (queue : Queue) (v : Bool) :
    (q.flagged ev queue v ev).evFlags.has queue = v := by
  rw [flagged, setFlag, modify_events, Function.update_self]
  cases queue <;> rfl

theorem flagged_of_ne (queue : Queue) (v : Bool) {e : EventPtr} (he : e ≠ ev) :
    q.flagged ev queue v e = q.events e :=
  Function.update_of_ne he ..

/-- Who has a flag after it has been set for one more event. -/
theorem flagged_iff_of_set (queue : Queue) (e : EventPtr) :
    (q.flagged ev queue true e).evFlags.has queue = true ↔
      e = ev ∨ (q.events e).evFlags.has queue = true := by
  by_cases he : e = ev
  · simp [he, flagged_self]
  · simp [he, flagged_of_ne]

/-- Who has a flag after it has been cleared for one event. -/
theorem flagged_iff_of_clear (queue : Queue) (e : EventPtr) :
    (q.flagged ev queue false e).evFlags.has queue = true ↔
      e ≠ ev ∧ (q.events e).evFlags.has queue = true := by
  by_cases he : e = ev
  · simp [he, flagged_self]
  · simp [he, flagged_of_ne]

/-- The heap when a flag changes that is not its own. -/
theorem Wf.heap_flagged (h : q.Wf) {queue : Queue} (hq : queue ≠ .timeout) (v : Bool) :
    q.timeheap.Wf (q.flagged ev queue v)
      { e | (q.flagged ev queue v e).evFlags.timeout = true } := by
  have hflag := @flagged_eq q ev _ (fun e => e.evFlags.timeout) queue v
    (fun e => by cases queue <;> first | rfl | exact absurd rfl hq)
  refine h.heap.congr (by simp only [hflag]) (flagged_eq Event.minHeapIdx queue v fun _ => rfl)
    fun e _ => flagged_eq Event.evTimeout queue v (fun _ => rfl) e

theorem Wf.inserted_flagged (h : q.Wf) {queue : Queue} (hq : queue ≠ .inserted) (v : Bool) :
    Listed q.eventqueue fun e => (q.flagged ev queue v e).evFlags.inserted = true := by
  have hflag := @flagged_eq q ev _ (fun e => e.evFlags.inserted) queue v
    (fun e => by cases queue <;> first | rfl | exact absurd rfl hq)
  exact h.inserted.congr fun e => by rw [hflag]

theorem Wf.active_flagged (h : q.Wf) {queue : Queue} (hq : queue ≠ .active) (v : Bool) (i : ℕ) :
    Listed (q.activequeues i) fun e =>
      (q.flagged ev queue v e).evFlags.active = true ∧ (q.flagged ev queue v e).evPri = i := by
  have hflag := @flagged_eq q ev _ (fun e => e.evFlags.active) queue v
    (fun e => by cases queue <;> first | rfl | exact absurd rfl hq)
  have hpri := @flagged_eq q ev _ Event.evPri queue v fun _ => rfl
  exact (h.active i).congr fun e => by rw [hflag, hpri]

/-- The elements of the heap when only flags change. -/
theorem slots_flagged (queue : Queue) (v : Bool) :
    slots q.timeheap (q.flagged ev queue v) = slots q.timeheap q.events :=
  congrArg (Slots.mk q.timeheap.p)
    (funext fun e => flagged_eq Event.minHeapIdx queue v (fun _ => rfl) e)

/-- The queues after a flag has been set or cleared, with the counter of the event base. -/
def recounted (q : Queues) (ev : EventPtr) (queue : Queue) (v : Bool) (d : ℤ) : Queues :=
  { q with
    eventCount := q.eventCount + if external q.events ev then d else 0
    events := q.flagged ev queue v }

theorem eventQueueInsert_eq {queue : Queue} (h : (q.events ev).evFlags.has queue = false) :
    q.eventQueueInsert ev queue = (q.recounted ev queue true 1).insertInto ev queue := by
  rw [eventQueueInsert, if_neg (by simp [h]), count_eq]
  rfl

theorem eventQueueRemove_eq {queue : Queue} (h : (q.events ev).evFlags.has queue = true) :
    q.eventQueueRemove ev queue = (q.recounted ev queue false (-1)).removeFrom ev queue := by
  rw [eventQueueRemove, if_pos h, count_eq]
  rfl

/-- `event_queue_insert` on `eventqueue`. -/
theorem Wf.insert_inserted (h : q.Wf) (hev : (q.events ev).evFlags.inserted = false) :
    ∃ q', q.eventQueueInsert ev .inserted = some q' ∧ q'.Wf ∧
      q'.events = q.flagged ev .inserted true ∧ q'.timeheap = q.timeheap ∧
      q'.activequeues = q.activequeues ∧ q'.nactivequeues = q.nactivequeues := by
  have hext := (@flagged_sameKind q ev .inserted true).external_eq
  refine ⟨_, eventQueueInsert_eq hev, ⟨h.heap_flagged (by decide) true,
    h.inserted.append (by simp [hev]) fun e => flagged_iff_of_set .inserted e,
    h.active_flagged (by decide) true, h.bound, ?_, h.eventCountActive⟩, rfl, rfl, rfl, rfl⟩
  have hcount := h.eventCount
  simp only [queuedCount, recounted, hext, slots_flagged, countP_append_singleton] at hcount ⊢
  split <;> omega

/-- `event_queue_remove` on `eventqueue`. -/
theorem Wf.remove_inserted (h : q.Wf) (hev : (q.events ev).evFlags.inserted = true) :
    ∃ q', q.eventQueueRemove ev .inserted = some q' ∧ q'.Wf ∧
      q'.events = q.flagged ev .inserted false ∧ q'.timeheap = q.timeheap ∧
      q'.activequeues = q.activequeues ∧ q'.nactivequeues = q.nactivequeues := by
  have hext := (@flagged_sameKind q ev .inserted false).external_eq
  have hcountP := @countP_erase_add (external q.events) _ ev ((h.inserted.2 ev).mpr hev)
  refine ⟨_, eventQueueRemove_eq hev, ⟨h.heap_flagged (by decide) false,
    h.inserted.erase fun e => flagged_iff_of_clear .inserted e,
    h.active_flagged (by decide) false, h.bound, ?_, h.eventCountActive⟩, rfl, rfl, rfl, rfl⟩
  have hcount := h.eventCount
  simp only [queuedCount, recounted, hext, slots_flagged] at hcount ⊢
  rw [hcount]
  split at hcountP <;> simp_all
  omega

/-- Who is active with a priority after one more event has become active. -/
theorem active_iff_of_set {i : ℕ} (e : EventPtr) :
    ((q.flagged ev .active true e).evFlags.active = true ∧
      (q.flagged ev .active true e).evPri = i) ↔
      (e = ev ∧ (q.events ev).evPri = i) ∨
        ((q.events e).evFlags.active = true ∧ (q.events e).evPri = i) := by
  have hflag := @flagged_iff_of_set q ev .active e
  have hpri := @flagged_eq q ev _ Event.evPri .active true (fun _ => rfl) e
  simp only [EvFlags.has] at hflag
  rw [hflag, hpri]
  constructor
  · rintro ⟨rfl | hactive, hi⟩
    · exact Or.inl ⟨rfl, hi⟩
    · exact Or.inr ⟨hactive, hi⟩
  · rintro (⟨rfl, hi⟩ | ⟨hactive, hi⟩)
    · exact ⟨Or.inl rfl, hi⟩
    · exact ⟨Or.inr hactive, hi⟩

/-- `event_queue_insert` on the queue of the event's priority. -/
theorem Wf.insert_active (h : q.Wf) (hev : (q.events ev).evFlags.active = false)
    (hpri : (q.events ev).evPri < q.nactivequeues) :
    ∃ q', q.eventQueueInsert ev .active = some q' ∧ q'.Wf ∧
      q'.events = q.flagged ev .active true ∧ q'.timeheap = q.timeheap ∧
      q'.activequeues = Function.update q.activequeues (q.events ev).evPri
        (q.activequeues (q.events ev).evPri ++ [ev]) ∧ q'.nactivequeues = q.nactivequeues := by
  have hext := (@flagged_sameKind q ev .active true).external_eq
  have hevPri : (q.flagged ev .active true ev).evPri = (q.events ev).evPri :=
    flagged_eq Event.evPri .active true (fun _ => rfl) ev
  have hsum := fun f => sum_range_update hpri f q.activequeues
    (q.activequeues (q.events ev).evPri ++ [ev])
  have hev' : (q.events ev).evFlags.has .active = false := hev
  refine ⟨{ q.recounted ev .active true 1 with
      eventCountActive := q.eventCountActive + 1
      activequeues := Function.update q.activequeues (q.events ev).evPri
        (q.activequeues (q.events ev).evPri ++ [ev]) }, ?_,
    ⟨h.heap_flagged (by decide) true, h.inserted_flagged (by decide) true, fun i => ?_,
      fun i hi => ?_, ?_, ?_⟩, rfl, rfl, rfl, rfl⟩
  · rw [eventQueueInsert_eq hev', insertInto]
    simp only [recounted, hevPri, if_pos hpri]
  · dsimp only [recounted]
    by_cases hi : i = (q.events ev).evPri
    · subst hi
      rw [Function.update_self]
      refine (h.active _).append (by simp [hev]) fun e => ?_
      rw [active_iff_of_set]
      simp
    · rw [Function.update_of_ne hi]
      refine (h.active i).congr fun e => ?_
      rw [active_iff_of_set]
      exact or_iff_right fun hc => hi hc.2.symm
  · dsimp only [recounted] at hi ⊢
    rw [Function.update_of_ne (by omega)]
    exact h.bound i hi
  · have hcount := h.eventCount
    have hsum' := hsum (List.countP (external q.events))
    rw [countP_append_singleton] at hsum'
    simp only [queuedCount, recounted, hext, slots_flagged] at hcount ⊢
    rw [hcount]
    split at hsum' <;> rename_i hx <;> simp only [hx, if_true, if_false, Bool.false_eq_true] <;>
      omega
  · have hcount := h.eventCountActive
    have hsum' := hsum List.length
    rw [List.length_append, List.length_singleton] at hsum'
    dsimp only [recounted]
    rw [hcount]
    omega

/-- Who is active with a priority after one event has ceased to be active. -/
theorem active_iff_of_clear {i : ℕ} (e : EventPtr) :
    ((q.flagged ev .active false e).evFlags.active = true ∧
      (q.flagged ev .active false e).evPri = i) ↔
      e ≠ ev ∧ (q.events e).evFlags.active = true ∧ (q.events e).evPri = i := by
  have hflag := @flagged_iff_of_clear q ev .active e
  have hpri := @flagged_eq q ev _ Event.evPri .active false (fun _ => rfl) e
  simp only [EvFlags.has] at hflag
  rw [hflag, hpri, and_assoc]

/-- `event_queue_remove` on the queue of the event's priority. -/
theorem Wf.remove_active (h : q.Wf) (hev : (q.events ev).evFlags.active = true) :
    ∃ q', q.eventQueueRemove ev .active = some q' ∧ q'.Wf ∧
      q'.events = q.flagged ev .active false ∧ q'.timeheap = q.timeheap ∧
      q'.activequeues = Function.update q.activequeues (q.events ev).evPri
        ((q.activequeues (q.events ev).evPri).erase ev) ∧ q'.nactivequeues = q.nactivequeues := by
  have hext := (@flagged_sameKind q ev .active false).external_eq
  have hevPri : (q.flagged ev .active false ev).evPri = (q.events ev).evPri :=
    flagged_eq Event.evPri .active false (fun _ => rfl) ev
  have hmem : ev ∈ q.activequeues (q.events ev).evPri := ((h.active _).2 ev).mpr ⟨hev, rfl⟩
  have hpri : (q.events ev).evPri < q.nactivequeues := by
    by_contra hle
    rw [h.bound _ (not_lt.mp hle)] at hmem
    cases hmem
  have hsum := fun f => sum_range_update hpri f q.activequeues
    ((q.activequeues (q.events ev).evPri).erase ev)
  have hev' : (q.events ev).evFlags.has .active = true := hev
  refine ⟨{ q.recounted ev .active false (-1) with
      eventCountActive := q.eventCountActive - 1
      activequeues := Function.update q.activequeues (q.events ev).evPri
        ((q.activequeues (q.events ev).evPri).erase ev) }, ?_,
    ⟨h.heap_flagged (by decide) false, h.inserted_flagged (by decide) false, fun i => ?_,
      fun i hi => ?_, ?_, ?_⟩, rfl, rfl, rfl, rfl⟩
  · rw [eventQueueRemove_eq hev', removeFrom]
    simp only [recounted, hevPri, if_pos hpri]
  · dsimp only [recounted]
    by_cases hi : i = (q.events ev).evPri
    · subst hi
      rw [Function.update_self]
      exact (h.active _).erase fun e => active_iff_of_clear e
    · rw [Function.update_of_ne hi]
      refine (h.active i).congr fun e => ?_
      rw [active_iff_of_clear]
      refine and_iff_right_of_imp ?_
      rintro ⟨-, he⟩ rfl
      exact hi he.symm
  · dsimp only [recounted] at hi ⊢
    rw [Function.update_of_ne (by omega)]
    exact h.bound i hi
  · have hcount := h.eventCount
    have hsum' := hsum (List.countP (external q.events))
    have hcountP := @countP_erase_add (external q.events) _ ev hmem
    simp only [queuedCount, recounted, hext, slots_flagged] at hcount ⊢
    rw [hcount]
    split at hcountP <;> rename_i hx <;> simp only [hx, if_true, if_false, Bool.false_eq_true] <;>
      omega
  · have hcount := h.eventCountActive
    have hsum' := hsum List.length
    have hlength := List.length_erase_of_mem hmem
    have hpos := List.length_pos_of_mem hmem
    dsimp only [recounted]
    rw [hcount]
    omega

/-- The heap of the event base when only flags change. -/
theorem Wf.heap_congr_flagged (h : q.Wf) (ev : EventPtr) (queue : Queue) (v : Bool) :
    q.timeheap.Wf (q.flagged ev queue v) { e | (q.events e).evFlags.timeout = true } :=
  h.heap.congr rfl (flagged_eq Event.minHeapIdx queue v fun _ => rfl)
    fun e _ => flagged_eq Event.evTimeout queue v (fun _ => rfl) e

/-- A change of the heap and of the indices, with the counter that goes with it. -/
theorem Wf.reheap (h : q.Wf) {v : Bool} {d : ℤ} {s : MinHeap} {pos : EventPtr → ℤ}
    (hs : s.Wf ((q.flagged ev .timeout v).withIdx pos)
      { e | (q.flagged ev .timeout v e).evFlags.timeout = true })
    (hcount : (((slots s ((q.flagged ev .timeout v).withIdx pos)).elems s.n).countP
        (external q.events) : ℤ) =
      ((slots q.timeheap q.events).elems q.timeheap.n).countP (external q.events) +
        if external q.events ev then d else 0) :
    ({ q.recounted ev .timeout v d with
      timeheap := s
      events := (q.flagged ev .timeout v).withIdx pos } : Queues).Wf := by
  have hext : external ((q.flagged ev .timeout v).withIdx pos) = external q.events :=
    (@flagged_sameKind q ev .timeout v).external_eq
  refine ⟨hs, h.inserted_flagged (by decide) v, h.active_flagged (by decide) v, h.bound, ?_,
    h.eventCountActive⟩
  have heq := h.eventCount
  simp only [queuedCount, recounted, hext] at heq ⊢
  rw [heq, Int.natCast_add, Int.natCast_add (_ + _), hcount]
  exact add_assoc _ _ _

/-- `event_queue_insert` on the heap. -/
theorem Wf.insert_timeout (h : q.Wf) (hev : (q.events ev).evFlags.timeout = false)
    (hroom : q.timeheap.n < q.timeheap.a) :
    ∃ q' pos, q.eventQueueInsert ev .timeout = some q' ∧ q'.Wf ∧
      q'.events = (q.flagged ev .timeout true).withIdx pos ∧
      q'.activequeues = q.activequeues ∧ q'.nactivequeues = q.nactivequeues := by
  have hev' : (q.events ev).evFlags.has .timeout = false := hev
  have hout : ev ∉ ({ e | (q.events e).evFlags.timeout = true } : Set EventPtr) := by simp [hev]
  obtain ⟨s, pos, hpush, hs, -, -⟩ :=
    (h.heap_congr_flagged ev .timeout true).push hout hroom
  have hset : insert ev ({ e | (q.events e).evFlags.timeout = true } : Set EventPtr) =
      { e | (q.flagged ev .timeout true e).evFlags.timeout = true } :=
    Set.ext fun e => (flagged_iff_of_set .timeout e).symm
  refine ⟨{ q.recounted ev .timeout true 1 with
      timeheap := s
      events := (q.flagged ev .timeout true).withIdx pos }, pos, ?_, h.reheap (hset ▸ hs) ?_, rfl,
    rfl, rfl⟩
  · rw [eventQueueInsert_eq hev', insertInto]
    simp only [recounted, hpush, Option.map_some]
  · have hperm := (h.heap.full.perm_insert hout hs.full).countP_eq (external q.events)
    rw [hperm, List.countP_cons]
    split <;> omega

/-- `event_queue_remove` on the heap. -/
theorem Wf.remove_timeout (h : q.Wf) (hev : (q.events ev).evFlags.timeout = true) :
    ∃ q' pos, q.eventQueueRemove ev .timeout = some q' ∧ q'.Wf ∧
      q'.events = (q.flagged ev .timeout false).withIdx pos ∧
      q'.activequeues = q.activequeues ∧ q'.nactivequeues = q.nactivequeues ∧
      q.timeheap.n = q'.timeheap.n + 1 ∧ q'.timeheap.a = q.timeheap.a := by
  have hev' : (q.events ev).evFlags.has .timeout = true := hev
  have hin : ev ∈ ({ e | (q.events e).evFlags.timeout = true } : Set EventPtr) := hev
  obtain ⟨s, pos, herase, hs, hn, ha⟩ :=
    (h.heap_congr_flagged ev .timeout false).erase hin
  have hset : ({ e | (q.events e).evFlags.timeout = true } : Set EventPtr) \ {ev} =
      { e | (q.flagged ev .timeout false e).evFlags.timeout = true } :=
    Set.ext fun e => and_comm.trans (flagged_iff_of_clear .timeout e).symm
  refine ⟨{ q.recounted ev .timeout false (-1) with
      timeheap := s
      events := (q.flagged ev .timeout false).withIdx pos }, pos, ?_, h.reheap (hset ▸ hs) ?_, rfl,
    rfl, rfl, hn, ha⟩
  · rw [eventQueueRemove_eq hev', removeFrom]
    simp only [recounted, herase, Option.map_some]
  · have hfull := h.heap.full
    rw [← Set.insert_sdiff_self_of_mem hin] at hfull
    have hperm := (hs.full.perm_insert (fun hc => hc.2 rfl) hfull).countP_eq (external q.events)
    rw [hperm, List.countP_cons]
    split <;> omega

end Wf

end Queues

end EventLoop

end IocpEcho
