import IocpEcho.Queues

/-!
# What the Operations of the Event Base do

Adding, deleting and activating an event, and the processing of the timeouts, each succeed in
an event base that is well formed, and keep it so: every queue, the heap and the lists of the
sockets and signals have exactly the events whose flags say so. What they do to the events is
said by one equation each, up to the indices in the heap.

## Main results

* `EventBase.Wf.eventDelInternal`, `EventBase.Wf.eventActiveNolock`,
  `EventBase.Wf.eventAddInternal`: the three operations.
* `EventBase.Wf.timeoutProcess`: every event whose time has come is active afterwards, and no
  event waits for a time that has come.
* `EventBase.Wf.timeoutCorrect`: when the clock has been set back, all timeouts are moved by
  the same amount.
-/

namespace IocpEcho

namespace EventLoop

open Heaps Finset

/-! ### Changes of one event -/

/-- The event without its index in the heap. -/
def Event.plain (e : Event) : Event := { e with minHeapIdx := 0 }

theorem Events.plain_apply (m : Events) (e : EventPtr) : m.plain e = (m e).plain := rfl

/-- A change of an event that does not look at its index in the heap. -/
def Plain (f : Event → Event) : Prop :=
  ∀ e e' : Event, e.plain = e'.plain → (f e).plain = (f e').plain

theorem Plain.of_idx {f : Event → Event}
    (h : ∀ e i, (f { e with minHeapIdx := i }).plain = (f e).plain) : Plain f := by
  intro e e' heq
  have he := h e 0
  have he' := h e' 0
  rw [← he, ← he']
  exact congrArg (fun x => (f x).plain) heq

/-- Change one event. -/
def Events.change (m : Events) (ev : EventPtr) (f : Event → Event) : Events :=
  Function.update m ev (f (m ev))

theorem Events.change_self (m : Events) (ev : EventPtr) (f : Event → Event) :
    m.change ev f ev = f (m ev) :=
  Function.update_self ..

theorem Events.change_of_ne (m : Events) {ev e : EventPtr} (f : Event → Event) (h : e ≠ ev) :
    m.change ev f e = m e :=
  Function.update_of_ne h ..

/-- Changes that do not look at the indices lead from the same plain events to the same. -/
theorem Events.plain_change {m m' : Events} (h : m.plain = m'.plain) {f : Event → Event}
    (hf : Plain f) (ev : EventPtr) : (m.change ev f).plain = (m'.change ev f).plain := by
  funext e
  rw [Events.plain_apply, Events.plain_apply]
  by_cases he : e = ev
  · subst he
    rw [Events.change_self, Events.change_self]
    exact hf _ _ (congrFun h e)
  · rw [Events.change_of_ne _ _ he, Events.change_of_ne _ _ he]
    exact congrFun h e

theorem Events.change_change (m : Events) (ev : EventPtr) (f g : Event → Event) :
    (m.change ev f).change ev g = m.change ev fun e => g (f e) := by
  rw [Events.change, Events.change_self, Events.change, Function.update_idem]
  rfl

theorem Events.change_congr {m : Events} {ev : EventPtr} {f g : Event → Event}
    (h : f (m ev) = g (m ev)) : m.change ev f = m.change ev g := by
  rw [Events.change, h, Events.change]

theorem Events.change_eq_self {m : Events} {ev : EventPtr} {f : Event → Event}
    (h : f (m ev) = m ev) : m.change ev f = m :=
  Function.update_eq_self_iff.mpr h

/-- Set or clear one flag. -/
def Event.flag (queue : Queue) (v : Bool) (e : Event) : Event :=
  { e with evFlags := e.evFlags.set v queue }

theorem Event.plain_flag (queue : Queue) (v : Bool) : Plain (Event.flag queue v) :=
  Plain.of_idx fun _ _ => rfl

theorem Queues.flagged_eq_change (q : Queues) (ev : EventPtr) (queue : Queue) (v : Bool) :
    q.flagged ev queue v = q.events.change ev (Event.flag queue v) := rfl

theorem Event.flag_of_has {queue : Queue} {v : Bool} {e : Event} (h : e.evFlags.has queue = v) :
    e.flag queue v = e := by
  subst h
  cases queue <;> rfl

theorem Event.kind_flag (queue : Queue) (v : Bool) (e : Event) :
    (Event.flag queue v e).kind = e.kind := by
  cases queue <;> rfl

/-- An event that is in no queue. -/
def Event.unqueued (e : Event) : Event :=
  .flag .inserted false (.flag .active false (.flag .timeout false e))

/-- An event that is not active takes the result. -/
def Event.withRes (res : What) (ncalls : ℕ) (e : Event) : Event :=
  { e with
    evRes := res
    evNcalls := if e.evEvents.signal then ncalls else e.evNcalls
    evPncalls := if e.evEvents.signal then none else e.evPncalls }

/-- An event that has become active because of `res`. -/
def Event.activated (res : What) (ncalls : ℕ) (e : Event) : Event :=
  if e.evFlags.active then { e with evRes := e.evRes.or res }
  else .flag .active true (e.withRes res ncalls)

theorem Event.plain_activated (res : What) (ncalls : ℕ) : Plain (Event.activated res ncalls) := by
  refine Plain.of_idx fun e i => ?_
  unfold Event.activated
  cases h : e.evFlags.active <;> rfl

/-- An event that has been entered for its socket or its signal, which it is not while it is
active. -/
def Event.entered (e : Event) : Event :=
  if (e.evEvents.read || e.evEvents.write || e.evEvents.signal) &&
      !(e.evFlags.inserted || e.evFlags.active) then .flag .inserted true e
  else e

/-- Entering an event leaves all but one flag. -/
theorem Event.entered_frame (e : Event) : e.entered.evFlags.active = e.evFlags.active ∧
    e.entered.evFlags.timeout = e.evFlags.timeout ∧ e.entered.evTimeout = e.evTimeout := by
  simp only [Event.entered]
  split <;> exact ⟨rfl, rfl, rfl⟩

/-- An event that is not active any more if it was so because of its timeout. -/
def Event.untimed (e : Event) : Event :=
  .flag .active (e.evFlags.active && !e.evRes.timeout) e

theorem Event.plain_untimed : Plain Event.untimed := Plain.of_idx fun _ _ => rfl

/-- A persistent event remembers the interval it has been added with. -/
def Event.remembered (tv : Timeval) (tvIsAbsolute : Bool) (e : Event) : Event :=
  { e with evIoTimeout :=
      if e.evClosure == .persist && !tvIsAbsolute then tv else e.evIoTimeout }

/-- An event that is due at `due`, after it has been added with `tv`. -/
def Event.timed (tv : Timeval) (tvIsAbsolute : Bool) (due : Timeval) (e : Event) : Event :=
  .flag .timeout true { (e.remembered tv tvIsAbsolute).untimed with evTimeout := due }

theorem Event.plain_timed (tv : Timeval) (tvIsAbsolute : Bool) (due : Timeval) :
    Plain (Event.timed tv tvIsAbsolute due) :=
  Plain.of_idx fun _ _ => rfl

namespace Queues

section Wf

variable {q : Queues} {ev : EventPtr}

/-- `event_queue_remove`, on any of the queues. -/
theorem Wf.eventQueueRemove (h : q.Wf) {queue : Queue}
    (hev : (q.events ev).evFlags.has queue = true) :
    ∃ q', q.eventQueueRemove ev queue = some q' ∧ q'.Wf ∧
      q'.events.plain = (q.events.change ev (Event.flag queue false)).plain ∧
      q'.nactivequeues = q.nactivequeues ∧ q'.timeheap.a = q.timeheap.a ∧
      q'.timeheap.n + (if queue = .timeout then 1 else 0) = q.timeheap.n := by
  cases queue with
  | inserted =>
      obtain ⟨q', hq, hwf, hevents, hheap, -, hn⟩ := h.remove_inserted hev
      exact ⟨q', hq, hwf, by rw [hevents]; rfl, hn, by rw [hheap], by rw [hheap]; rfl⟩
  | active =>
      obtain ⟨q', hq, hwf, hevents, hheap, -, hn⟩ := h.remove_active hev
      exact ⟨q', hq, hwf, by rw [hevents]; rfl, hn, by rw [hheap], by rw [hheap]; rfl⟩
  | timeout =>
      obtain ⟨q', pos, hq, hwf, hevents, -, hn, hsize, ha⟩ := h.remove_timeout hev
      exact ⟨q', hq, hwf, by rw [hevents]; rfl, hn, ha, hsize.symm⟩

/-- Removing an event from a queue where it may be. -/
theorem Wf.removeIfQueued (h : q.Wf) (ev : EventPtr) (queue : Queue) :
    ∃ q', q.removeIfQueued ev queue = some q' ∧ q'.Wf ∧
      q'.events.plain = (q.events.change ev (Event.flag queue false)).plain ∧
      q'.nactivequeues = q.nactivequeues ∧ q'.timeheap.a = q.timeheap.a ∧
      q'.timeheap.n + (if queue = .timeout ∧ (q.events ev).evFlags.timeout then 1 else 0) =
        q.timeheap.n := by
  by_cases hev : (q.events ev).evFlags.has queue = true
  · obtain ⟨q', hq, hwf, hplain, hn, ha, hsize⟩ := h.eventQueueRemove hev
    refine ⟨q', (if_pos hev).trans hq, hwf, hplain, hn, ha, ?_⟩
    rw [← hsize]
    refine congrArg (q'.timeheap.n + ·) (if_congr (and_iff_left_of_imp ?_) rfl rfl)
    rintro rfl
    exact hev
  · refine ⟨q, if_neg hev, h, ?_, rfl, rfl, ?_⟩
    · rw [Events.change_eq_self (Event.flag_of_has (Bool.eq_false_iff.mpr hev))]
    · rw [if_neg, Nat.add_zero]
      rintro ⟨rfl, htimeout⟩
      exact hev htimeout

/-- `event_queue_insert`, on any of the queues. -/
theorem Wf.eventQueueInsert (h : q.Wf) (queue : Queue)
    (hev : (q.events ev).evFlags.has queue = false)
    (hpri : queue = .active → (q.events ev).evPri < q.nactivequeues)
    (hroom : queue = .timeout → q.timeheap.n < q.timeheap.a) :
    ∃ q', q.eventQueueInsert ev queue = some q' ∧ q'.Wf ∧
      q'.events.plain = (q.events.change ev (Event.flag queue true)).plain ∧
      q'.nactivequeues = q.nactivequeues ∧ (queue ≠ .timeout → q'.timeheap = q.timeheap) := by
  cases queue with
  | inserted =>
      obtain ⟨q', hq, hwf, hevents, hheap, -, hn⟩ := h.insert_inserted hev
      exact ⟨q', hq, hwf, by rw [hevents]; rfl, hn, fun _ => hheap⟩
  | active =>
      obtain ⟨q', hq, hwf, hevents, hheap, -, hn⟩ := h.insert_active hev (hpri rfl)
      exact ⟨q', hq, hwf, by rw [hevents]; rfl, hn, fun _ => hheap⟩
  | timeout =>
      obtain ⟨q', pos, hq, hwf, hevents, -, hn⟩ := h.insert_timeout hev (hroom rfl)
      exact ⟨q', hq, hwf, by rw [hevents]; rfl, hn, fun hne => absurd rfl hne⟩

end Wf

end Queues

namespace EventBase

/-! ### The event base as a whole -/

/-- The event waits for a socket. -/
def WaitsIo (m : Events) (e : EventPtr) : Prop :=
  (m e).evFlags.inserted = true ∧ ((m e).evEvents.read || (m e).evEvents.write) = true

/-- The event waits for a signal. -/
def WaitsSignal (m : Events) (sig : Socket) (e : EventPtr) : Prop :=
  (m e).evFlags.inserted = true ∧ ((m e).evEvents.read || (m e).evEvents.write) = false ∧
    (m e).evFd = sig

/-- The queues agree with the flags, and so do the lists of the sockets and the signals. -/
structure Wf (b : EventBase) : Prop where
  queues : b.toQueues.Wf
  io : b.ioMap.Wf b.events { e | WaitsIo b.events e }
  signals : ∀ sig, Listed (b.sigmap sig) (WaitsSignal b.events sig)

/-- The loop is told, or not. -/
def Signals (b b' : EventBase) : Prop :=
  (b'.isNotifyPending = b.isNotifyPending ∧ b'.thNotifyBytes = b.thNotifyBytes) ∨
    (b.thNotify.isSome = true ∧ b.isNotifyPending = false ∧ b'.isNotifyPending = true ∧
      b'.thNotifyBytes = b.thNotifyBytes + 1)

/-- Some event has a higher priority than the callback that is running. -/
def Preempted (b : EventBase) : Prop := ∃ e, ((b.events e).evPri : ℤ) < b.eventRunningPriority

/-- An operation leads from `b` to `b'`, with the events `m` up to their indices in the heap. -/
structure Does (b b' : EventBase) (m : Events) : Prop where
  wf : b'.Wf
  loopState : b'.toLoopState = b.toLoopState
  plain : b'.events.plain = m.plain
  nactivequeues : b'.nactivequeues = b.nactivequeues
  signals : Signals b b'
  continues : b.eventContinue = true → b'.eventContinue = true
  entries : ∀ fd, (b.ioMap.io fd).isSome → (b'.ioMap.io fd).isSome
  kind : SameKind b.events b'.events
  continued : b'.eventContinue = true → b.eventContinue = true ∨ Preempted b

/-- Nothing has come up that a loop would have to know of while it waits: no event has become
active, no socket has to be watched that was not, and there is no earlier timeout. -/
structure Quiet (b b' : EventBase) : Prop where
  active : ∀ e, (b'.events e).evFlags.active = true → (b.events e).evFlags.active = true
  interest : ∀ d, b'.ioMap.interest d ⊆ b.ioMap.interest d
  timeouts : ∀ e, (b'.events e).evFlags.timeout = true → ∃ x,
    (b.events x).evFlags.timeout = true ∧
      (b.events x).evTimeout.key ≤ (b'.events e).evTimeout.key

theorem Quiet.refl (b : EventBase) : Quiet b b :=
  ⟨fun _ => id, fun _ => subset_rfl, fun e he => ⟨e, he, le_rfl⟩⟩

/-- A change of one event that neither makes it active nor times it. -/
theorem Quiet.of_change {b b' : EventBase} {ev : EventPtr} {f : Event → Event}
    (hplain : b'.events.plain = (b.events.change ev f).plain)
    (hinterest : ∀ d, b'.ioMap.interest d ⊆ b.ioMap.interest d)
    (hactive : ∀ e : Event, (f e).evFlags.active = true → e.evFlags.active = true)
    (htimeout : ∀ e : Event, (f e).evFlags.timeout = true →
      e.evFlags.timeout = true ∧ (f e).evTimeout = e.evTimeout) : Quiet b b' where
  active e he := by
    rw [Events.evFlags_of_plain hplain] at he
    by_cases hev : e = ev
    · subst hev
      rw [Events.change_self] at he
      exact hactive _ he
    · rwa [Events.change_of_ne _ _ hev] at he
  interest := hinterest
  timeouts e he := by
    rw [Events.evFlags_of_plain hplain] at he
    rw [Events.evTimeout_of_plain hplain]
    by_cases hev : e = ev
    · subst hev
      rw [Events.change_self] at he ⊢
      obtain ⟨hold, heq⟩ := htimeout _ he
      exact ⟨e, hold, (congrArg Timeval.key heq).ge⟩
    · rw [Events.change_of_ne _ _ hev] at he ⊢
      exact ⟨e, he, le_rfl⟩

/-- What the loop has to know of, it is told, if it is another thread that brings it up. -/
def Told (b b' : EventBase) (inThread : Bool) : Prop :=
  Quiet b b' ∨ (inThread = false → b.runningLoop = true → b.thNotify.isSome = true →
    b'.isNotifyPending = true)

theorem Signals.refl (b : EventBase) : Signals b b := Or.inl ⟨rfl, rfl⟩

theorem Signals.trans {b b' b'' : EventBase} (h : Signals b b') (h' : Signals b' b'')
    (hstate : b'.toLoopState = b.toLoopState) : Signals b b'' := by
  have hnotify : b'.thNotify = b.thNotify := congrArg LoopState.thNotify hstate
  rcases h with ⟨hp, hb⟩ | ⟨hsome, hp, hp', hb⟩
  · rcases h' with ⟨hp₂, hb₂⟩ | ⟨hsome₂, hp₂, hp₂', hb₂⟩
    · exact Or.inl ⟨hp₂.trans hp, hb₂.trans hb⟩
    · exact Or.inr ⟨hnotify ▸ hsome₂, hp ▸ hp₂, hp₂', hb₂.trans (by rw [hb])⟩
  · rcases h' with ⟨hp₂, hb₂⟩ | ⟨-, hp₂, -⟩
    · exact Or.inr ⟨hsome, hp, hp₂.trans hp', hb₂.trans hb⟩
    · rw [hp'] at hp₂
      cases hp₂

/-- Once the loop has been told, it stays told. -/
theorem Signals.pending {b b' : EventBase} (h : Signals b b') (hp : b.isNotifyPending = true) :
    b'.isNotifyPending = true := by
  rcases h with ⟨hp', -⟩ | ⟨-, hnot, -⟩
  · rw [hp', hp]
  · rw [hp] at hnot
    cases hnot

theorem Does.trans {b b' b'' : EventBase} {m m' : Events} (h : Does b b' m)
    (h' : Does b' b'' m') : Does b b'' m' where
  wf := h'.wf
  loopState := h'.loopState.trans h.loopState
  plain := h'.plain
  nactivequeues := h'.nactivequeues.trans h.nactivequeues
  signals := h.signals.trans h'.signals h.loopState
  continues hc := h'.continues (h.continues hc)
  entries fd hfd := h'.entries fd (h.entries fd hfd)
  kind := h.kind.trans h'.kind
  continued hc := (h'.continued hc).elim h.continued fun ⟨e, he⟩ => Or.inr ⟨e, by
    rwa [show (b.events e).evPri = (b'.events e).evPri from (congrArg Kind.evPri (h.kind e)).symm,
      show b.eventRunningPriority = b'.eventRunningPriority from
        (congrArg LoopState.eventRunningPriority h.loopState).symm]⟩

theorem Does.of_plain {b b' : EventBase} {m m' : Events} (h : Does b b' m)
    (hm : m.plain = m'.plain) : Does b b' m' :=
  { h with plain := h.plain.trans hm }

theorem Does.pri_lt {b b' : EventBase} {m : Events} (h : Does b b' m)
    (hpri : ∀ e, (b.events e).evPri < b.nactivequeues) (e : EventPtr) :
    (b'.events e).evPri < b'.nactivequeues := by
  rw [show (b'.events e).evPri = (b.events e).evPri from congrArg Kind.evPri (h.kind e),
    h.nactivequeues]
  exact hpri e

/-- Two changes of an event in succession. -/
theorem Does.change {b b' b'' : EventBase} {ev : EventPtr} {f g : Event → Event}
    (h : Does b b' (b.events.change ev f)) (h' : Does b' b'' (b'.events.change ev g))
    (hg : Plain g) : Does b b'' (b.events.change ev fun e => g (f e)) := by
  refine (h.trans h').of_plain ?_
  rw [Events.plain_change h.plain hg, Events.change_change]

section Wf

variable {b : EventBase} {ev : EventPtr}

/-- The queues change, and with them neither the kind of an event nor who waits for a socket or
a signal. -/
theorem Wf.withQueues (h : b.Wf) {q : Queues} (hq : q.Wf) (hkind : SameKind b.events q.events)
    (hinserted : ∀ e, (q.events e).evFlags.inserted = (b.events e).evFlags.inserted) :
    ({ b with toQueues := q } : EventBase).Wf := by
  have hfd : ∀ e, (q.events e).evFd = (b.events e).evFd := fun e => congrArg Kind.evFd (hkind e)
  have hevents : ∀ e, (q.events e).evEvents = (b.events e).evEvents := fun e =>
    congrArg Kind.evEvents (hkind e)
  refine ⟨hq, h.io.congr hfd hevents ?_, fun sig => (h.signals sig).congr fun e => ?_⟩
  · simp only [WaitsIo, hinserted, hevents]
  · simp only [WaitsSignal, hinserted, hevents, hfd]

theorem Wf.does_refl (h : b.Wf) : Does b b b.events :=
  ⟨h, rfl, rfl, rfl, Signals.refl b, id, fun _ => id, SameKind.refl _, Or.inl⟩

/-- The queues change, as an operation. -/
theorem Wf.does_queues (h : b.Wf) {q : Queues} (hq : q.Wf) {f : Event → Event}
    (hplain : q.events.plain = (b.events.change ev f).plain)
    (hn : q.nactivequeues = b.nactivequeues)
    (hkind : (f (b.events ev)).kind = (b.events ev).kind)
    (hinserted : (f (b.events ev)).evFlags.inserted = (b.events ev).evFlags.inserted) :
    Does b { b with toQueues := q } (b.events.change ev f) := by
  have hsame : SameKind b.events q.events :=
    (SameKind.update hkind).trans (SameKind.of_plain hplain)
  refine ⟨h.withQueues hq hsame fun e => ?_, rfl, hplain, hn, Signals.refl b, id, fun _ => id,
    hsame, Or.inl⟩
  rw [Events.evFlags_of_plain hplain]
  exact Events.update_eq (fun e => e.evFlags.inserted) hinserted e

/-- Only one event changes, in what concerns neither queues nor maps. -/
theorem Wf.does_modify (h : b.Wf) (ev : EventPtr) {f : Event → Event}
    (hf : ∀ e, (f e).evFlags = e.evFlags ∧ (f e).evPri = e.evPri ∧ (f e).minHeapIdx = e.minHeapIdx)
    (hkind : (f (b.events ev)).kind = (b.events ev).kind)
    (htimeout : (b.events ev).evFlags.timeout = true →
      (f (b.events ev)).evTimeout = (b.events ev).evTimeout) :
    Does b (b.modify ev f) (b.events.change ev f) :=
  h.does_queues (h.queues.modify hf htimeout) rfl rfl hkind
    (congrArg EvFlags.inserted (hf _).1)

/-! ### Telling the loop -/

@[simp] theorem evthreadNotifyBase_toQueues : b.evthreadNotifyBase.toQueues = b.toQueues := by
  unfold evthreadNotifyBase
  split <;> rfl

/-- `evthread_notify_base` tells the loop once. -/
theorem evthreadNotifyBase_cases : b.evthreadNotifyBase = b ∨
    (b.thNotify.isSome = true ∧ b.isNotifyPending = false ∧ b.evthreadNotifyBase =
      { b with isNotifyPending := true, thNotifyBytes := b.thNotifyBytes + 1 }) := by
  unfold evthreadNotifyBase
  split
  · exact Or.inl rfl
  · rename_i hcond
    simp only [Bool.or_eq_true, not_or, Bool.not_eq_true, Option.isNone_eq_false_iff] at hcond
    exact Or.inr ⟨hcond.1, hcond.2, rfl⟩

/-- After `evthread_notify_base` the loop has been told, if it can be. -/
theorem evthreadNotifyBase_pending (h : b.thNotify.isSome = true) :
    b.evthreadNotifyBase.isNotifyPending = true := by
  unfold evthreadNotifyBase
  split
  · rename_i hcond
    have hnone : b.thNotify.isNone = false := Option.isNone_eq_false_iff.mpr h
    rw [hnone, Bool.false_or] at hcond
    exact hcond
  · rfl

theorem Wf.does_notifyIf (h : b.Wf) (inThread notify : Bool) :
    Does b (b.notifyIf inThread notify) b.events := by
  unfold notifyIf
  split
  · rcases @evthreadNotifyBase_cases b with heq | ⟨hsome, hp, heq⟩
    · rw [heq]
      exact h.does_refl
    · rw [heq]
      exact ⟨⟨h.queues, h.io, h.signals⟩, rfl, rfl, rfl, Or.inr ⟨hsome, hp, rfl, rfl⟩, id,
        fun _ => id, SameKind.refl _, Or.inl⟩
  · exact h.does_refl

theorem notifyIf_ioMap (inThread notify : Bool) : (b.notifyIf inThread notify).ioMap = b.ioMap := by
  unfold notifyIf evthreadNotifyBase
  split <;> [split <;> rfl; rfl]

theorem notifyIf_toQueues (inThread notify : Bool) :
    (b.notifyIf inThread notify).toQueues = b.toQueues := by
  unfold notifyIf evthreadNotifyBase
  split <;> [split <;> rfl; rfl]

/-- A thread other than that of a running loop tells it. -/
theorem notifyIf_pending (hrun : b.runningLoop = true) (hsome : b.thNotify.isSome = true) :
    (b.notifyIf false true).isNotifyPending = true := by
  rw [notifyIf, if_pos (by simp [needNotify, hrun])]
  exact evthreadNotifyBase_pending hsome

/-! ### Deleting -/

theorem abortLoop_cases : b.abortLoop ev = b ∨ b.abortLoop ev = { b with signalNcalls := 0 } ∨
    b.abortLoop ev = { b with staleWrite := true } := by
  simp only [abortLoop]
  split
  · split
    · exact Or.inl rfl
    · split
      · exact Or.inr (Or.inl rfl)
      · exact Or.inr (Or.inr rfl)
  · exact Or.inl rfl

theorem abortLoop_toQueues : (b.abortLoop ev).toQueues = b.toQueues := by
  rcases @abortLoop_cases b ev with h | h | h <;> rw [h]

theorem abortLoop_ioMap : (b.abortLoop ev).ioMap = b.ioMap := by
  rcases @abortLoop_cases b ev with h | h | h <;> rw [h]

theorem Wf.does_abortLoop (h : b.Wf) (ev : EventPtr) : Does b (b.abortLoop ev) b.events := by
  rcases @abortLoop_cases b ev with heq | heq | heq <;> rw [heq] <;>
    exact ⟨⟨h.queues, h.io, h.signals⟩, rfl, rfl, rfl, Or.inl ⟨rfl, rfl⟩, id, fun _ => id,
      SameKind.refl _, Or.inl⟩

/-- Removing an event from the heap or from its active queue, if it is there. -/
theorem Wf.does_removeIfQueued (h : b.Wf) (ev : EventPtr) (queue : Queue)
    (hqueue : queue ≠ .inserted) :
    ∃ q, b.toQueues.removeIfQueued ev queue = some q ∧
      Does b { b with toQueues := q } (b.events.change ev (Event.flag queue false)) ∧
      q.timeheap.a = b.timeheap.a ∧ q.timeheap.n +
        (if queue = .timeout ∧ (b.events ev).evFlags.timeout then 1 else 0) = b.timeheap.n := by
  obtain ⟨q, hq, hwf, hplain, hn, ha, hsize⟩ := h.queues.removeIfQueued ev queue
  refine ⟨q, hq, h.does_queues hwf hplain hn (Event.kind_flag ..) ?_, ha, hsize⟩
  cases queue <;> first | rfl | exact absurd rfl hqueue

theorem onQueues_eq {f : Queues → Option Queues} {q : Queues} (h : f b.toQueues = some q) :
    b.onQueues f = some { b with toQueues := q } := by
  rw [onQueues, h, Option.map_some]

/-- The event leaves the list of its socket or its signal. -/
theorem Wf.delInserted (h : b.Wf) (ev : EventPtr) :
    ∃ b' notify, b.delInserted ev = some (b', notify) ∧
      Does b b' (b.events.change ev (Event.flag .inserted false)) ∧
      b'.timeheap = b.timeheap ∧ ∀ d, b'.ioMap.interest d ⊆ b.ioMap.interest d := by
  unfold EventBase.delInserted
  cases hins : (b.events ev).evFlags.inserted with
  | false =>
      have hsame := Events.change_eq_self (@Event.flag_of_has .inserted _ _ hins)
      exact ⟨b, false, rfl, hsame.symm ▸ h.does_refl, rfl, fun _ => subset_rfl⟩
  | true =>
      obtain ⟨q, hq, hwf, hevents, hheap, -, hn⟩ := h.queues.remove_inserted hins
      have hkind : SameKind b.events q.events := hevents ▸ Queues.flagged_sameKind .inserted false
      have hfd : ∀ e, (q.events e).evFd = (b.events e).evFd := fun e => congrArg Kind.evFd (hkind e)
      have hwants : ∀ e, (q.events e).evEvents = (b.events e).evEvents := fun e =>
        congrArg Kind.evEvents (hkind e)
      have hflag : ∀ e, (q.events e).evFlags.inserted = true ↔
          e ≠ ev ∧ (b.events e).evFlags.inserted = true := fun e => by
        rw [hevents]
        exact Queues.flagged_iff_of_clear .inserted e
      have hplain : q.events.plain = (b.events.change ev (Event.flag .inserted false)).plain := by
        rw [hevents]
        rfl
      have hio := h.io.congr hfd hwants rfl
      rw [if_pos rfl, onQueues_eq hq]
      simp only [bind, Option.bind]
      by_cases hwait : ((q.events ev).evEvents.read || (q.events ev).evEvents.write) = true
      · rw [if_pos hwait]
        have hmem : ev ∈ ({ e | WaitsIo b.events e } : Set EventPtr) :=
          ⟨hins, (hwants ev) ▸ hwait⟩
        obtain ⟨map, r, hdel, -, hmap, hsub, hkeep⟩ := hio.del hmem
        rw [hdel]
        refine ⟨_, _, rfl, ⟨⟨hwf, ?_, fun sig => ?_⟩, rfl, hplain, hn, Or.inl ⟨rfl, rfl⟩, id,
          hkeep, hkind, Or.inl⟩, hheap, hsub⟩
        · refine hmap.congr (fun _ => rfl) (fun _ => rfl) (Set.ext fun e => ?_)
          simp only [Set.mem_ofPred_eq, WaitsIo, hflag, hwants, Set.mem_sdiff,
            Set.mem_singleton_iff]
          exact ⟨fun ⟨⟨hne, hi⟩, hw⟩ => ⟨⟨hi, hw⟩, hne⟩, fun ⟨⟨hi, hw⟩, hne⟩ => ⟨⟨hne, hi⟩, hw⟩⟩
        · refine (h.signals sig).congr fun e => ?_
          simp only [WaitsSignal, hflag, hwants, hfd]
          refine ⟨fun ⟨⟨_, hi⟩, hw⟩ => ⟨hi, hw⟩, fun ⟨hi, hw, hs⟩ => ⟨⟨?_, hi⟩, hw, hs⟩⟩
          rintro rfl
          rw [← hwants, hwait] at hw
          cases hw
      · rw [if_neg hwait]
        have hwait' := Bool.eq_false_iff.mpr hwait
        refine ⟨_, _, rfl, ⟨⟨hwf, ?_, fun sig => ?_⟩, rfl, hplain, hn, Or.inl ⟨rfl, rfl⟩, id,
          fun _ => id, hkind, Or.inl⟩, hheap, fun _ => subset_rfl⟩
        · refine hio.congr (fun _ => rfl) (fun _ => rfl) (Set.ext fun e => ?_)
          simp only [Set.mem_ofPred_eq, WaitsIo, hflag, hwants]
          refine ⟨fun ⟨⟨_, hi⟩, hw⟩ => ⟨hi, hw⟩, fun ⟨hi, hw⟩ => ⟨⟨?_, hi⟩, hw⟩⟩
          rintro rfl
          rw [← hwants, hwait'] at hw
          cases hw
        · dsimp only
          by_cases hsig : sig = (q.events ev).evFd
          · subst hsig
            rw [Function.update_self]
            refine (h.signals _).erase fun e => ?_
            simp only [WaitsSignal, hflag, hwants, hfd]
            exact and_assoc
          · rw [Function.update_of_ne hsig]
            refine (h.signals sig).congr fun e => ?_
            simp only [WaitsSignal, hflag, hwants, hfd]
            refine ⟨fun ⟨⟨_, hi⟩, hw⟩ => ⟨hi, hw⟩, fun ⟨hi, hw, hs⟩ => ⟨⟨?_, hi⟩, hw, hs⟩⟩
            rintro rfl
            exact hsig ((hfd _).symm ▸ hs).symm

/-- **Deleting.** The event is in no queue any more. -/
theorem Wf.eventDelInternal (h : b.Wf) (inThread : Bool) (ev : EventPtr) :
    ∃ b', b.eventDelInternal inThread ev = some b' ∧ Does b b' (b.events.change ev Event.unqueued) ∧
      b'.timeheap.a = b.timeheap.a ∧
      b'.timeheap.n + (if (b.events ev).evFlags.timeout then 1 else 0) = b.timeheap.n ∧
      Quiet b b' := by
  have hqueues₀ := @abortLoop_toQueues b ev
  have h₀ := h.does_abortLoop ev
  obtain ⟨q₁, hq₁, h₁, ha₁, hn₁⟩ := h₀.wf.does_removeIfQueued ev .timeout (by decide)
  set b₁ : EventBase := { b.abortLoop ev with toQueues := q₁ } with hb₁
  obtain ⟨q₂, hq₂, h₂, ha₂, hn₂⟩ := h₁.wf.does_removeIfQueued ev .active (by decide)
  set b₂ : EventBase := { b₁ with toQueues := q₂ } with hb₂
  obtain ⟨b₃, notify, hdel, h₃, hheap₃, hsub₃⟩ := h₂.wf.delInserted ev
  have h₄ := h₃.wf.does_notifyIf inThread notify
  have hevents₀ : (b.abortLoop ev).events = b.events := congrArg Queues.events hqueues₀
  have hheap₀ : (b.abortLoop ev).timeheap = b.timeheap := congrArg Queues.timeheap hqueues₀
  have h₀₁ : Does b b₁ (b.events.change ev (Event.flag .timeout false)) := by
    have h' := h₀.trans h₁
    rwa [hevents₀] at h'
  have h₀₃ : Does b b₃ (b.events.change ev Event.unqueued) :=
    (h₀₁.change h₂ (Event.plain_flag _ _)).change h₃ (Event.plain_flag _ _)
  have hrun₁ : (b.abortLoop ev).onQueues (·.removeIfQueued ev .timeout) = some b₁ := onQueues_eq hq₁
  have hrun₂ : b₁.onQueues (·.removeIfQueued ev .active) = some b₂ := onQueues_eq hq₂
  have h₀₄ := (h₀₃.trans h₄).of_plain h₀₃.plain
  refine ⟨b₃.notifyIf inThread notify, ?_, h₀₄, ?_, ?_,
    Quiet.of_change h₀₄.plain (fun d => ?_) (fun _ => ?_) fun _ => ?_⟩
  · rw [EventBase.eventDelInternal]
    simp only [hrun₁, hrun₂, hdel, bind, Option.bind, pure]
  · rw [notifyIf_toQueues, hheap₃, ← hheap₀, ← ha₁]
    exact ha₂
  · rw [notifyIf_toQueues, hheap₃, ← hheap₀, ← hn₁, hevents₀]
    simpa using hn₂
  · rw [notifyIf_ioMap]
    refine (hsub₃ d).trans ?_
    rw [← @abortLoop_ioMap b ev]
  · rintro ⟨⟩
  · rintro ⟨⟩

/-! ### Activating -/

theorem modify_self (f : Event → Event) : (b.modify ev f).events ev = f (b.events ev) :=
  Function.update_self ..

theorem modify_modify (f g : Event → Event) :
    (b.modify ev f).modify ev g = b.modify ev fun e => g (f e) := by
  simp only [modify, Queues.modify, Function.update_self, Function.update_idem]

theorem modify_congr {f g : Event → Event} (h : f (b.events ev) = g (b.events ev)) :
    b.modify ev f = b.modify ev g := by
  simp only [modify, Queues.modify, h]

theorem modify_eq_self {f : Event → Event} (h : f (b.events ev) = b.events ev) :
    b.modify ev f = b := by
  simp only [modify, Queues.modify, h, Function.update_eq_self]

theorem continueFor_eq : b.continueFor ev = { b with
    eventContinue :=
      b.eventContinue || decide (((b.events ev).evPri : ℤ) < b.eventRunningPriority) } := by
  unfold continueFor
  split
  · rename_i hpri
    rw [decide_eq_true hpri, Bool.or_true]
  · rename_i hpri
    rw [decide_eq_false hpri, Bool.or_false]

theorem setNcalls_eq (ncalls : ℕ) : b.setNcalls ev ncalls = b.modify ev fun e =>
    { e with
      evNcalls := if e.evEvents.signal then ncalls else e.evNcalls
      evPncalls := if e.evEvents.signal then none else e.evPncalls } := by
  unfold setNcalls
  split
  · rename_i hsignal
    exact modify_congr (by simp only [hsignal, if_true])
  · rename_i hsignal
    rw [modify_eq_self (by simp only [hsignal, Bool.false_eq_true, if_false])]

/-- What `event_active_nolock` writes before it enters the event. -/
theorem setNcalls_continueFor (res : What) (ncalls : ℕ) :
    (((b.modify ev fun e => { e with evRes := res }).continueFor ev).setNcalls ev ncalls) =
      { b.modify ev (Event.withRes res ncalls) with
        eventContinue :=
          b.eventContinue || decide (((b.events ev).evPri : ℤ) < b.eventRunningPriority) } := by
  have hself := @modify_self b ev fun e => { e with evRes := res }
  rw [continueFor_eq, setNcalls_eq, hself]
  simp only [modify, Queues.modify, Function.update_self, Function.update_idem, Event.withRes]
  rfl

/-- **Activating.** The event is active, for the reasons it was active before and for `res`; the
loop is told to look at the priorities anew, if it runs a callback of a lower priority, and is
told to stop waiting. -/
theorem Wf.eventActiveNolock (h : b.Wf) (inThread : Bool) (ev : EventPtr) (res : What)
    (ncalls : ℕ) (hpri : (b.events ev).evPri < b.nactivequeues) :
    ∃ b', b.eventActiveNolock inThread ev res ncalls = some b' ∧
      Does b b' (b.events.change ev (Event.activated res ncalls)) ∧
      b'.timeheap = b.timeheap ∧ Told b b' inThread ∧ ((b.events ev).evFlags.active = false →
        ((b.events ev).evPri : ℤ) < b.eventRunningPriority → b'.eventContinue = true) := by
  cases hactive : (b.events ev).evFlags.active with
  | true =>
      have hdoes := h.does_modify ev (f := fun e => { e with evRes := e.evRes.or res })
        (fun _ => ⟨rfl, rfl, rfl⟩) rfl fun _ => rfl
      refine ⟨_, if_pos hactive, hdoes.of_plain ?_, rfl, Or.inl (Quiet.of_change hdoes.plain
        (fun _ => subset_rfl) (fun _ => id) fun _ he => ⟨he, rfl⟩), fun hnot => ?_⟩
      · exact congrArg Events.plain (Events.change_congr (if_pos hactive).symm)
      · cases hnot
  | false =>
      have h₁ : Does b { b.modify ev (Event.withRes res ncalls) with
          eventContinue := b.eventContinue ||
            decide (((b.events ev).evPri : ℤ) < b.eventRunningPriority) }
          (b.events.change ev (Event.withRes res ncalls)) := by
        have hdoes := h.does_modify ev (f := Event.withRes res ncalls)
          (fun _ => ⟨rfl, rfl, rfl⟩) rfl fun _ => rfl
        refine ⟨⟨hdoes.wf.queues, hdoes.wf.io, hdoes.wf.signals⟩, rfl, hdoes.plain, rfl,
          Signals.refl b, fun hc => by rw [hc, Bool.true_or], fun _ => id, hdoes.kind,
          fun hc => ?_⟩
        exact (Bool.or_eq_true_iff.mp hc).imp_right fun hlt => ⟨ev, of_decide_eq_true hlt⟩
      set b₁ : EventBase := { b.modify ev (Event.withRes res ncalls) with
        eventContinue := b.eventContinue ||
          decide (((b.events ev).evPri : ℤ) < b.eventRunningPriority) } with hb₁
      have hev : b₁.events ev = (b.events ev).withRes res ncalls := modify_self _
      obtain ⟨q, hq, hwf, hplain, hn, hheap⟩ := h₁.wf.queues.eventQueueInsert .active
        (by rw [hev]; exact hactive) (fun _ => by rw [hev]; exact hpri) (by rintro ⟨⟩)
      have h₂ := h₁.wf.does_queues hwf hplain hn rfl rfl
      set b₂ : EventBase := { b₁ with toQueues := q } with hb₂
      have h₃ := h₂.wf.does_notifyIf inThread true
      have h₁₂ := h₁.change h₂ (Event.plain_flag _ _)
      refine ⟨b₂.notifyIf inThread true, ?_, (h₁₂.trans h₃).of_plain ?_, ?_,
        Or.inr fun hthread hrun hsome => ?_, fun _ hlt => ?_⟩
      · have hrun : b₁.onQueues (·.eventQueueInsert ev .active) = some b₂ := onQueues_eq hq
        rw [EventBase.eventActiveNolock, if_neg (by rw [hactive]; decide)]
        simp only [setNcalls_continueFor, ← hb₁, hrun, bind, Option.bind, pure]
      · rw [h₁₂.plain]
        exact congrArg Events.plain (Events.change_congr (by
          rw [Event.activated, hactive, if_neg Bool.false_ne_true]))
      · rw [notifyIf_toQueues]
        exact hheap (by decide)
      · subst hthread
        exact notifyIf_pending hrun hsome
      · exact h₃.continues (by
          change (b.eventContinue || _) = true
          rw [decide_eq_true hlt, Bool.or_true])

/-! ### Adding -/

/-- The event enters the list of its socket or its signal. -/
theorem Wf.addInserted (h : b.Wf) (granted : Granted) (ev : EventPtr) :
    ∃ b' r notify, b.addInserted granted ev = some (b', r, notify) ∧
      b'.timeheap = b.timeheap ∧
      (r = -1 ∧ notify = false ∧ Does b b' b.events ∨
        r = 0 ∧ Does b b' (b.events.change ev Event.entered)) ∧
      (notify = false → b'.ioMap.interest = b.ioMap.interest) := by
  unfold EventBase.addInserted
  dsimp only
  by_cases henter : ((b.events ev).evEvents.read || (b.events ev).evEvents.write ||
      (b.events ev).evEvents.signal) &&
      !((b.events ev).evFlags.inserted || (b.events ev).evFlags.active)
  · rw [if_pos henter]
    have hentered : b.events.change ev (Event.flag .inserted true) =
        b.events.change ev Event.entered := Events.change_congr (if_pos henter).symm
    have hout : (b.events ev).evFlags.inserted = false := by
      simp only [Bool.and_eq_true, Bool.not_eq_true', Bool.or_eq_false_iff] at henter
      exact henter.2.1
    obtain ⟨q, hq, hwf, hevents, hheap, -, hn⟩ := h.queues.insert_inserted hout
    have hkind : SameKind b.events q.events := hevents ▸ Queues.flagged_sameKind .inserted true
    have hfd : ∀ e, (q.events e).evFd = (b.events e).evFd := fun e => congrArg Kind.evFd (hkind e)
    have hwants : ∀ e, (q.events e).evEvents = (b.events e).evEvents := fun e =>
      congrArg Kind.evEvents (hkind e)
    have hflag : ∀ e, (q.events e).evFlags.inserted = true ↔
        e = ev ∨ (b.events e).evFlags.inserted = true := fun e => by
      rw [hevents]
      exact Queues.flagged_iff_of_set .inserted e
    have hplain : q.events.plain = (b.events.change ev Event.entered).plain := by
      rw [hevents, ← hentered]
      rfl
    by_cases hwait : ((b.events ev).evEvents.read || (b.events ev).evEvents.write) = true
    · rw [if_pos hwait]
      have hnot : ev ∉ ({ e | WaitsIo b.events e } : Set EventPtr) := fun hmem => by
        rw [hmem.1] at hout
        cases hout
      obtain ⟨map, r, hadd, hmap, hinterest, hkeep⟩ := h.io.add hnot granted.entry
      have hrun : ({ b with ioMap := map } : EventBase).onQueues (·.eventQueueInsert ev .inserted) =
        some { b with ioMap := map, toQueues := q } := onQueues_eq hq
      simp only [hadd, hrun, bind, Option.bind, pure]
      by_cases hr : r = -1
      · obtain ⟨-, hmap⟩ := hmap.resolve_right (by rintro ⟨hr' | hr', -⟩ <;> omega)
        rw [if_pos hr]
        exact ⟨_, -1, false, rfl, rfl, Or.inl ⟨rfl, rfl, ⟨h.queues, hmap, h.signals⟩, rfl, rfl, rfl,
          Or.inl ⟨rfl, rfl⟩, id, hkeep, SameKind.refl _, Or.inl⟩, fun _ => hinterest (by omega)⟩
      · obtain ⟨hr', hmap⟩ := hmap.resolve_left fun hmap => hr hmap.1
        rw [if_neg hr]
        refine ⟨_, 0, r == 1, rfl, hheap, Or.inr ⟨rfl, ⟨hwf, ?_, fun sig => ?_⟩, rfl, hplain, hn,
          Or.inl ⟨rfl, rfl⟩, id, hkeep, hkind, Or.inl⟩,
          fun hnotify => hinterest (by simpa using hnotify)⟩
        · refine hmap.congr hfd hwants (Set.ext fun e => ?_)
          simp only [Set.mem_ofPred_eq, WaitsIo, hflag, hwants, Set.mem_insert_iff]
          constructor
          · rintro ⟨rfl | hi, hw⟩
            · exact Or.inl rfl
            · exact Or.inr ⟨hi, hw⟩
          · rintro (rfl | ⟨hi, hw⟩)
            · exact ⟨Or.inl rfl, hwait⟩
            · exact ⟨Or.inr hi, hw⟩
        · refine (h.signals sig).congr fun e => ?_
          simp only [WaitsSignal, hflag, hwants, hfd]
          refine ⟨fun ⟨hi, hw, hs⟩ => ⟨hi.resolve_left ?_, hw, hs⟩,
            fun ⟨hi, hw, hs⟩ => ⟨Or.inr hi, hw, hs⟩⟩
          rintro rfl
          rw [hwait] at hw
          cases hw
    · set sigmap := Function.update b.sigmap (b.events ev).evFd
        (b.sigmap (b.events ev).evFd ++ [ev]) with hsigmap
      have hrun : ({ b with sigmap := sigmap } : EventBase).onQueues
        (·.eventQueueInsert ev .inserted) = some { b with sigmap := sigmap, toQueues := q } :=
        onQueues_eq hq
      have hwait' := Bool.eq_false_iff.mpr hwait
      rw [if_neg hwait]
      simp only [hrun, bind, Option.bind, pure]
      refine ⟨_, 0, true, rfl, hheap, Or.inr ⟨rfl, ⟨hwf, ?_, fun sig => ?_⟩, rfl, hplain, hn,
        Or.inl ⟨rfl, rfl⟩, id, fun _ => id, hkind, Or.inl⟩, by rintro ⟨⟩⟩
      · refine h.io.congr hfd hwants (Set.ext fun e => ?_)
        simp only [Set.mem_ofPred_eq, WaitsIo, hflag, hwants]
        refine ⟨fun ⟨hi, hw⟩ => ⟨hi.resolve_left ?_, hw⟩, fun ⟨hi, hw⟩ => ⟨Or.inr hi, hw⟩⟩
        rintro rfl
        exact hwait hw
      · dsimp only
        by_cases hsig : sig = (b.events ev).evFd
        · subst hsig
          rw [hsigmap, Function.update_self]
          refine (h.signals _).append (fun hs => ?_) fun e => ?_
          · rw [hs.1] at hout
            cases hout
          · simp only [WaitsSignal, hflag, hwants, hfd]
            constructor
            · rintro ⟨rfl | hi, hw⟩
              · exact Or.inl rfl
              · exact Or.inr ⟨hi, hw⟩
            · rintro (rfl | ⟨hi, hw⟩)
              · exact ⟨Or.inl rfl, hwait', rfl⟩
              · exact ⟨Or.inr hi, hw⟩
        · rw [hsigmap, Function.update_of_ne hsig]
          refine (h.signals sig).congr fun e => ?_
          simp only [WaitsSignal, hflag, hwants, hfd]
          refine ⟨fun ⟨hi, hw, hs⟩ => ⟨hi.resolve_left ?_, hw, hs⟩,
            fun ⟨hi, hw, hs⟩ => ⟨Or.inr hi, hw, hs⟩⟩
          rintro rfl
          exact hsig hs.symm
  · rw [if_neg henter]
    have hsame : b.events.change ev Event.entered = b.events :=
      Events.change_eq_self (if_neg henter)
    exact ⟨b, 0, false, rfl, rfl, Or.inr ⟨rfl, hsame.symm ▸ h.does_refl⟩, fun _ => rfl⟩

/-- The event is no longer active because of its timeout. -/
theorem Wf.removeActiveTimeout (h : b.Wf) (ev : EventPtr) :
    ∃ b', b.removeActiveTimeout ev = some b' ∧ Does b b' (b.events.change ev Event.untimed) ∧
      b'.timeheap = b.timeheap ∧ b'.ioMap = b.ioMap := by
  unfold EventBase.removeActiveTimeout
  cases hactive : (b.events ev).evFlags.active && (b.events ev).evRes.timeout with
  | false =>
      have hsame : b.events.change ev Event.untimed = b.events := by
        refine Events.change_eq_self (Event.flag_of_has ?_)
        revert hactive
        simp only [EvFlags.has]
        cases (b.events ev).evFlags.active <;> cases (b.events ev).evRes.timeout <;> simp
      exact ⟨b, rfl, hsame.symm ▸ h.does_refl, rfl, rfl⟩
  | true =>
      have hactive' := Bool.and_eq_true_iff.mp hactive
      have h₀ := h.does_abortLoop ev
      have hqueues₀ := @abortLoop_toQueues b ev
      have hq₀ : (b.abortLoop ev).toQueues.Wf := hqueues₀ ▸ h.queues
      obtain ⟨q, hq, hwf, hevents, hheap, -, hn⟩ := h.queues.remove_active hactive'.1
      have hplain : q.events.plain = (b.events.change ev Event.untimed).plain := by
        rw [hevents, Queues.flagged_eq_change]
        refine congrArg Events.plain (Events.change_congr ?_)
        rw [Event.untimed, hactive'.1, hactive'.2]
        rfl
      have h₁ := h₀.wf.does_queues hwf (f := Event.untimed) (by rw [hplain, hqueues₀])
        (by rw [hn, hqueues₀]) (Event.kind_flag ..) rfl
      rw [if_pos rfl, onQueues_eq (by rw [hqueues₀]; exact hq)]
      refine ⟨_, rfl, (h₀.trans h₁).of_plain (by rw [hqueues₀]), hheap, @abortLoop_ioMap b ev⟩

theorem gettime_congr {b b' : EventBase} (h : b'.toLoopState = b.toLoopState)
    (clock : Timeval) : b'.gettime clock = b.gettime clock := by
  rw [gettime, gettime, h]

/-- When the event is due that is added with `tv`. -/
def dueAt (b : EventBase) (clock tv : Timeval) (tvIsAbsolute : Bool) : Timeval :=
  if tvIsAbsolute then tv else evutilTimeradd (b.gettime clock) tv

theorem setIoTimeout_eq (tv : Timeval) (tvIsAbsolute : Bool) :
    b.setIoTimeout ev tv tvIsAbsolute = b.modify ev (Event.remembered tv tvIsAbsolute) := by
  unfold setIoTimeout
  split
  · rename_i hcond
    exact modify_congr (by simp only [Event.remembered, hcond, if_true])
  · rename_i hcond
    rw [modify_eq_self (by
      simp only [Event.remembered, hcond, Bool.false_eq_true, if_false])]

theorem Wf.does_setIoTimeout (h : b.Wf) (ev : EventPtr) (tv : Timeval) (tvIsAbsolute : Bool) :
    Does b (b.setIoTimeout ev tv tvIsAbsolute)
      (b.events.change ev (Event.remembered tv tvIsAbsolute)) := by
  rw [setIoTimeout_eq]
  exact h.does_modify ev (fun _ => ⟨rfl, rfl, rfl⟩) rfl fun _ => rfl

theorem setIoTimeout_frame {tv : Timeval} {tvIsAbsolute : Bool} :
    (b.setIoTimeout ev tv tvIsAbsolute).timeheap = b.timeheap ∧
      (b.setIoTimeout ev tv tvIsAbsolute).ioMap = b.ioMap ∧
      ((b.setIoTimeout ev tv tvIsAbsolute).events ev).evFlags = (b.events ev).evFlags := by
  rw [setIoTimeout_eq]
  refine ⟨rfl, rfl, ?_⟩
  rw [modify_self]
  rfl

/-- The event enters the heap. -/
theorem Wf.addTimeout (h : b.Wf) (clock : Timeval) (ev : EventPtr) (tv : Timeval)
    (tvIsAbsolute : Bool)
    (hroom : (b.events ev).evFlags.timeout = false → b.timeheap.n < b.timeheap.a) :
    ∃ b' notify, b.addTimeout clock ev tv tvIsAbsolute = some (b', notify) ∧
      Does b b' (b.events.change ev
        (Event.timed tv tvIsAbsolute (b.dueAt clock tv tvIsAbsolute))) ∧
      b'.ioMap = b.ioMap ∧ (notify = false → minHeapTop b'.timeheap ≠ some ev) := by
  have h₀ := h.does_setIoTimeout ev tv tvIsAbsolute
  obtain ⟨hheap₀, hmap₀, hflag₀⟩ := @setIoTimeout_frame b ev tv tvIsAbsolute
  obtain ⟨q₁, hq₁, h₁, ha₁, hn₁⟩ := h₀.wf.does_removeIfQueued ev .timeout (by decide)
  set b₁ : EventBase := { b.setIoTimeout ev tv tvIsAbsolute with toQueues := q₁ } with hb₁
  obtain ⟨b₂, hb₂, h₂, hheap₂, hmap₂⟩ := h₁.wf.removeActiveTimeout ev
  have h₀₂ := (h₀.change h₁ (Event.plain_flag _ _)).change h₂ Event.plain_untimed
  have hout₂ : (b₂.events ev).evFlags.timeout = false := by
    rw [Events.evFlags_of_plain h₀₂.plain, Events.change_self]
    rfl
  set due := b.dueAt clock tv tvIsAbsolute with hdue
  have h₃ : Does b₂ (b₂.modify ev fun e => { e with evTimeout := due })
      (b₂.events.change ev fun e => { e with evTimeout := due }) :=
    h₂.wf.does_modify ev (fun _ => ⟨rfl, rfl, rfl⟩) rfl fun hin => by
      rw [hout₂] at hin
      cases hin
  set b₃ := b₂.modify ev fun e => { e with evTimeout := due } with hb₃
  have hout₃ : (b₃.events ev).evFlags.timeout = false := by
    rw [hb₃, modify_self]
    exact hout₂
  -- taking the event out has made room for it, if it was in
  have hroom₃ : b₃.timeheap.n < b₃.timeheap.a := by
    have hle := h.queues.heap.room
    have hheap₃ : b₃.timeheap = q₁.timeheap := hheap₂
    rw [hheap₃, ha₁, hheap₀]
    simp only [hheap₀, hflag₀, true_and] at hn₁
    cases hin : (b.events ev).evFlags.timeout with
    | false =>
        have hlt := hroom hin
        simp only [hin, Bool.false_eq_true, if_false] at hn₁
        omega
    | true =>
        simp only [hin, if_true] at hn₁
        omega
  obtain ⟨q₄, hq₄, hwf₄, hplain₄, hn₄, -⟩ := h₃.wf.queues.eventQueueInsert .timeout hout₃
    (by rintro ⟨⟩) fun _ => hroom₃
  have h₄ := h₃.wf.does_queues hwf₄ hplain₄ hn₄ rfl rfl
  set b₄ : EventBase := { b₃ with toQueues := q₄ } with hb₄
  have h₀₄ := (h₀₂.change h₃ (Plain.of_idx fun _ _ => rfl)).change h₄ (Event.plain_flag _ _)
  have hrun₁ : (b.setIoTimeout ev tv tvIsAbsolute).onQueues (·.removeIfQueued ev .timeout) =
    some b₁ := onQueues_eq hq₁
  have hrun₄ : b₃.onQueues (·.eventQueueInsert ev .timeout) = some b₄ := onQueues_eq hq₄
  refine ⟨b₄, ((b.setIoTimeout ev tv tvIsAbsolute).events ev).evFlags.timeout &&
    minHeapEltIsTop (b.setIoTimeout ev tv tvIsAbsolute).events ev ||
    minHeapEltIsTop b₄.events ev, ?_, h₀₄, hmap₂.trans hmap₀, fun hnotify htop => ?_⟩
  · have hgettime : b₂.gettime clock = b.gettime clock := gettime_congr h₀₂.loopState clock
    have hdue' : (if tvIsAbsolute then tv else evutilTimeradd (b₂.gettime clock) tv) = due := by
      rw [hgettime, hdue, dueAt]
    rw [EventBase.addTimeout]
    simp only [hrun₁, hb₂, hdue', ← hb₃, hrun₄, bind, Option.bind, pure]
  · have htop' := h₄.wf.queues.heap.isTop_iff.mpr htop
    simp only [htop', Bool.or_true] at hnotify
    cases hnotify

/-- Room is reserved in the heap. -/
theorem Wf.reserve (h : b.Wf) (granted : Granted) (ev : EventPtr) (tv : Option Timeval) :
    b.reserve granted ev tv = none ∨ ∃ b', b.reserve granted ev tv = some b' ∧
      Does b b' b.events ∧ b'.events = b.events ∧ b'.ioMap = b.ioMap ∧
      (tv.isSome = true → (b.events ev).evFlags.timeout = false →
        b'.timeheap.n < b'.timeheap.a) := by
  unfold EventBase.reserve
  split
  · rename_i hcond
    cases hs : minHeapReserve granted.heap b.timeheap (1 + b.timeheap.n) with
    | none => exact Or.inl rfl
    | some s =>
        rw [Nat.add_comm] at hs
        obtain ⟨hwf, hlt, hn, hp⟩ := h.queues.heap.reserve hs
        have hslots : slots s b.events = slots b.timeheap b.events := by rw [slots, hp, slots]
        have hq : ({ b.toQueues with timeheap := s } : Queues).Wf := by
          refine ⟨hwf, h.queues.inserted, h.queues.active, h.queues.bound, ?_,
            h.queues.eventCountActive⟩
          have hcount := h.queues.eventCount
          simp only [Queues.queuedCount, hslots, hn] at hcount ⊢
          exact hcount
        exact Or.inr ⟨_, rfl, ⟨⟨hq, h.io, h.signals⟩, rfl, rfl, rfl, Signals.refl b, id,
          fun _ => id, SameKind.refl _, Or.inl⟩, rfl, rfl, fun _ _ => hlt⟩
  · rename_i hcond
    refine Or.inr ⟨b, rfl, h.does_refl, rfl, rfl, fun hsome hflag => ?_⟩
    rw [hsome, hflag] at hcond
    exact absurd rfl hcond

/-- An event that has been added, with or without a timeout. -/
def added (b : EventBase) (clock : Timeval) (tv : Option Timeval) (tvIsAbsolute : Bool)
    (e : Event) : Event :=
  match tv with
  | none => e.entered
  | some tv => e.entered.timed tv tvIsAbsolute (b.dueAt clock tv tvIsAbsolute)

/-- The event has got a timeout, and it is not the first that is due. -/
theorem Quiet.of_timed {b b' : EventBase} {ev : EventPtr} {f : Event → Event} (h : b'.Wf)
    (hplain : b'.events.plain = (b.events.change ev f).plain)
    (hinterest : ∀ d, b'.ioMap.interest d ⊆ b.ioMap.interest d)
    (hactive : ∀ e : Event, (f e).evFlags.active = true → e.evFlags.active = true)
    (htop : minHeapTop b'.timeheap ≠ some ev) : Quiet b b' where
  active e he := by
    rw [Events.evFlags_of_plain hplain] at he
    by_cases hev : e = ev
    · subst hev
      rw [Events.change_self] at he
      exact hactive _ he
    · rwa [Events.change_of_ne _ _ hev] at he
  interest := hinterest
  timeouts e he := by
    obtain ⟨-, hempty⟩ | ⟨x, hx, hxtop, hle⟩ := h.queues.heap.top
    · exact absurd he (Set.eq_empty_iff_forall_notMem.mp hempty e)
    · have hne : x ≠ ev := fun hxev => htop (hxev ▸ hxtop)
      have hx' : (b'.events x).evFlags.timeout = true := hx
      have hkey := hle e he
      rw [timeoutKey, Events.evTimeout_of_plain hplain, Events.change_of_ne _ _ hne] at hkey
      rw [Events.evFlags_of_plain hplain, Events.change_of_ne _ _ hne] at hx'
      exact ⟨x, hx', hkey⟩

/-- If something has come up, the loop is told at the end. -/
theorem told_notifyIf {b' : EventBase} {inThread notify : Bool}
    (hstate : b'.toLoopState = b.toLoopState)
    (hquiet : notify = false → Quiet b b') : Told b (b'.notifyIf inThread notify) inThread := by
  cases notify with
  | false => exact Or.inl (hquiet rfl)
  | true =>
      refine Or.inr fun hthread hrun hsome => ?_
      subst hthread
      refine notifyIf_pending ?_ ?_
      · rw [hstate]
        exact hrun
      · rw [hstate]
        exact hsome

/-- **Adding.** Either the event is added, with its timeout; or nothing happens to it, and no
socket comes to be watched. -/
theorem Wf.eventAddInternal (h : b.Wf) (granted : Granted) (clock : Timeval) (inThread : Bool)
    (ev : EventPtr) (tv : Option Timeval) (tvIsAbsolute : Bool) :
    ∃ b' r, b.eventAddInternal granted clock inThread ev tv tvIsAbsolute = some (b', r) ∧
      (r = -1 ∧ Does b b' b.events ∧ Quiet b b' ∨
        r = 0 ∧ Does b b' (b.events.change ev (b.added clock tv tvIsAbsolute)) ∧
          Told b b' inThread) := by
  rw [EventBase.eventAddInternal]
  rcases h.reserve granted ev tv with hnone | ⟨b₁, hb₁, h₁, hevents₁, hmap₁, hroom₁⟩
  · rw [hnone]
    exact ⟨b, -1, rfl, Or.inl ⟨rfl, h.does_refl, Quiet.refl b⟩⟩
  obtain ⟨b₂, r, notify, hb₂, hheap₂, hcases, hquiet⟩ := h₁.wf.addInserted granted ev
  rw [hb₁]
  simp only [hb₂, bind, Option.bind]
  rcases hcases with ⟨rfl, rfl, h₂⟩ | ⟨rfl, h₂⟩
  · have h₀₂ : Does b b₂ b.events := (h₁.trans h₂).of_plain (by rw [hevents₁])
    have hinterest := (hquiet rfl).trans (congrArg IoMap.interest hmap₁)
    refine ⟨b₂, -1, rfl, Or.inl ⟨rfl, h₀₂, @Quiet.of_change _ _ ev id ?_
      (fun d => (congrFun hinterest d).subset) (fun _ => id) fun _ he => ⟨he, rfl⟩⟩⟩
    rw [h₀₂.plain, Events.change_eq_self rfl]
  have h₀₂ : Does b b₂ (b.events.change ev Event.entered) := by
    refine (h₁.trans h₂).of_plain ?_
    rw [hevents₁]
  have hinterest₂ : notify = false → ∀ d, b₂.ioMap.interest d ⊆ b.ioMap.interest d := fun hn d =>
    (congrFun ((hquiet hn).trans (congrArg IoMap.interest hmap₁)) d).subset
  rw [if_neg (by decide)]
  cases tv with
  | none =>
      have h₃ := h₂.wf.does_notifyIf inThread notify
      refine ⟨_, 0, rfl, Or.inr ⟨rfl, (h₀₂.trans h₃).of_plain h₀₂.plain,
        told_notifyIf h₀₂.loopState fun hn => Quiet.of_change h₀₂.plain (hinterest₂ hn)
          (fun e he => ?_) fun e he => ?_⟩⟩
      · rwa [e.entered_frame.1] at he
      · rw [e.entered_frame.2.1] at he
        exact ⟨he, e.entered_frame.2.2⟩
  | some tv =>
      have hroom₂ : (b₂.events ev).evFlags.timeout = false → b₂.timeheap.n < b₂.timeheap.a := by
        intro hout
        rw [Events.evFlags_of_plain h₀₂.plain, Events.change_self,
          (b.events ev).entered_frame.2.1] at hout
        rw [hheap₂]
        exact hroom₁ rfl hout
      obtain ⟨b₃, notify', hb₃, h₃, hmap₃, htop⟩ :=
        h₂.wf.addTimeout clock ev tv tvIsAbsolute hroom₂
      have hdue : b₂.dueAt clock tv tvIsAbsolute = b.dueAt clock tv tvIsAbsolute := by
        rw [dueAt, dueAt, gettime_congr h₀₂.loopState]
      rw [hdue] at h₃
      have h₀₃ := h₀₂.change h₃ (Event.plain_timed _ _ _)
      have h₄ := h₃.wf.does_notifyIf inThread (notify || notify')
      simp only [addRest, hb₃, bind, Option.bind, pure]
      refine ⟨_, 0, rfl, Or.inr ⟨rfl, (h₀₃.trans h₄).of_plain h₀₃.plain,
        told_notifyIf h₀₃.loopState fun hn => ?_⟩⟩
      obtain ⟨hn₁, hn₂⟩ := Bool.or_eq_false_iff.mp hn
      refine Quiet.of_timed h₃.wf h₀₃.plain (fun d => ?_) (fun e he => ?_) (htop hn₂)
      · rw [hmap₃]
        exact hinterest₂ hn₁ d
      · have hactive : (e.entered.evFlags.active && !e.entered.evRes.timeout) = true := he
        rw [e.entered_frame.1] at hactive
        exact (Bool.and_eq_true_iff.mp hactive).1

end Wf

end EventBase

end EventLoop

end IocpEcho
