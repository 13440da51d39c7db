import IocpEcho.Timeouts

/-!
# Calls of the Event Base

The functions of an event base that any thread may call while the loop runs, and what all of
them keep: `Sound` says that the event base is well formed, that its times are normal, that
every event has one of the priorities there are, and that the event of `th_notify` is still
waiting for its socket. `Called` says what a call means for the loop: a call by another thread
that brings up something the loop has to know of wakes it, and one that makes an event of a
higher priority active has it stop after the callback that is running.

## Main results

* `EventBase.Sound.call`: every call that is allowed succeeds, keeps the event base sound, and
  is a `Called`.
-/

namespace IocpEcho

namespace EventLoop

open Heaps Finset

/-! ### Changes of events that are in no queue -/

/-- The event is in no queue. -/
def Event.Idle (e : Event) : Prop :=
  e.evFlags.inserted = false ∧ e.evFlags.active = false ∧ e.evFlags.timeout = false

theorem countP_congr_mem {m m' : Events} {l : List EventPtr} {P : EventPtr → Prop}
    (hl : ∀ e ∈ l, P e) (hP : ∀ e, P e → (m' e).evFlags.internal = (m e).evFlags.internal) :
    l.countP (external m') = l.countP (external m) := by
  refine List.countP_congr fun e he => ?_
  rw [external, external, hP e (hl e he)]

/-- A change of the events that concerns neither queues nor heap, in what the queues do not
look at. -/
theorem Queues.Wf.of_events {q : Queues} (h : q.Wf) {m : Events}
    (hflags : ∀ e queue, (m e).evFlags.has queue = (q.events e).evFlags.has queue)
    (hidx : ∀ e, (m e).minHeapIdx = (q.events e).minHeapIdx)
    (hsame : ∀ e, ¬ (q.events e).Idle → (m e).evTimeout = (q.events e).evTimeout ∧
      (m e).evFlags.internal = (q.events e).evFlags.internal)
    (hpri : ∀ e, (q.events e).evFlags.active = true → (m e).evPri = (q.events e).evPri) :
    ({ q with events := m } : Queues).Wf := by
  have hinserted : ∀ e, (m e).evFlags.inserted = (q.events e).evFlags.inserted := fun e =>
    hflags e .inserted
  have hactive : ∀ e, (m e).evFlags.active = (q.events e).evFlags.active := fun e =>
    hflags e .active
  have htimeout : ∀ e, (m e).evFlags.timeout = (q.events e).evFlags.timeout := fun e =>
    hflags e .timeout
  have hslots : slots q.timeheap m = slots q.timeheap q.events :=
    congrArg (Slots.mk q.timeheap.p) (funext hidx)
  have hbusy : ∀ e, (q.events e).evFlags.timeout = true → ¬ (q.events e).Idle := by
    rintro e he ⟨-, -, hnot⟩
    rw [he] at hnot
    cases hnot
  refine ⟨h.heap.congr (by simp only [htimeout]) hidx fun e he => (hsame e (hbusy e he)).1,
    h.inserted.congr fun e => ?_, fun i => (h.active i).congr fun e => ?_, h.bound, ?_,
    h.eventCountActive⟩
  · dsimp only
    rw [hinserted]
  · dsimp only
    rw [hactive]
    exact and_congr_right fun he => by rw [hpri e he]
  · have hcount := h.eventCount
    have hqueue := @countP_congr_mem q.events m q.eventqueue (fun e => ¬ (q.events e).Idle)
      (fun e he hidle => by
        have hin : (q.events e).evFlags.inserted = true := (h.inserted.2 e).mp he
        rw [hidle.1] at hin
        cases hin) fun e he => (hsame e he).2
    have hactives : ∀ i, (q.activequeues i).countP (external m) =
        (q.activequeues i).countP (external q.events) := fun i =>
      @countP_congr_mem q.events m _ (fun e => ¬ (q.events e).Idle) (fun e he hidle => by
        have hin : (q.events e).evFlags.active = true := (((h.active i).2 e).mp he).1
        rw [hidle.2.1] at hin
        cases hin) fun e he => (hsame e he).2
    have helems := @countP_congr_mem q.events m ((slots q.timeheap q.events).elems q.timeheap.n)
      (fun e => ¬ (q.events e).Idle)
      (fun e he => hbusy e (h.heap.full.mem_elems.mp he)) fun e he => (hsame e he).2
    simp only [queuedCount, hslots, hqueue, hactives, helems] at hcount ⊢
    exact hcount

/-- The event of `th_notify`, as `evthread_make_base_notifiable` has set it up. -/
structure Event.Wakes (e : Event) : Prop where
  internal : e.evFlags.internal = true
  inserted : e.evFlags.inserted = true
  untimed : e.evFlags.timeout = false
  events : e.evEvents = { read := true, persist := true }
  nonneg : 0 ≤ e.evFd
  pri : e.evPri = 0
  interval : e.evIoTimeout = evutilTimerclear

/-- What `event_assign` makes of an event. -/
def Event.assigned (fd : Socket) (events : What) (callback : Callback)
    (pri : ℕ) (e : Event) : Event :=
  let e : Event := { e with
    evCallback := callback
    evFd := fd
    evEvents := events
    evRes := {}
    evFlags := {}
    evNcalls := 0
    evPncalls := none }
  if events.signal && (events.read || events.write) then e
  else
    let e : Event :=
      if events.signal then { e with evClosure := .signal }
      else if events.persist then
        { e with evIoTimeout := evutilTimerclear, evClosure := .persist }
      else { e with evClosure := .none }
    { e with minHeapIdx := -1, evPri := pri }

theorem Event.assigned_cases (fd : Socket) (events : What) (callback : Callback) (pri : ℕ)
    (e : Event) : (e.assigned fd events callback pri).evFlags = {} ∧
      (e.assigned fd events callback pri).evTimeout = e.evTimeout ∧
      ((e.assigned fd events callback pri).minHeapIdx = e.minHeapIdx ∧
        (e.assigned fd events callback pri).evPri = e.evPri ∧
        (e.assigned fd events callback pri).evClosure = e.evClosure ∧
        (e.assigned fd events callback pri).evIoTimeout = e.evIoTimeout ∨
      (e.assigned fd events callback pri).minHeapIdx = -1 ∧
        (e.assigned fd events callback pri).evPri = pri ∧
        ((e.assigned fd events callback pri).evClosure = .persist →
          (e.assigned fd events callback pri).evIoTimeout = evutilTimerclear)) := by
  unfold Event.assigned
  split
  · exact ⟨rfl, rfl, Or.inl ⟨rfl, rfl, rfl, rfl⟩⟩
  · dsimp only
    split
    · exact ⟨rfl, rfl, Or.inr ⟨rfl, rfl, by rintro ⟨⟩⟩⟩
    · split
      · exact ⟨rfl, rfl, Or.inr ⟨rfl, rfl, fun _ => rfl⟩⟩
      · exact ⟨rfl, rfl, Or.inr ⟨rfl, rfl, by rintro ⟨⟩⟩⟩

namespace EventBase

variable {b : EventBase} {ev : EventPtr} {clock : Timeval}

/-- The same of the event base as a whole. -/
theorem Wf.of_events (h : b.Wf) {m : Events}
    (hflags : ∀ e queue, (m e).evFlags.has queue = (b.events e).evFlags.has queue)
    (hidx : ∀ e, (m e).minHeapIdx = (b.events e).minHeapIdx)
    (hsame : ∀ e, ¬ (b.events e).Idle → (m e).evTimeout = (b.events e).evTimeout ∧
      (m e).evFlags.internal = (b.events e).evFlags.internal ∧
      (m e).evFd = (b.events e).evFd ∧ (m e).evEvents = (b.events e).evEvents)
    (hpri : ∀ e, (b.events e).evFlags.active = true → (m e).evPri = (b.events e).evPri) :
    ({ b with events := m } : EventBase).Wf := by
  have hinserted : ∀ e, (m e).evFlags.inserted = (b.events e).evFlags.inserted := fun e =>
    hflags e .inserted
  have hbusy : ∀ e, (b.events e).evFlags.inserted = true → ¬ (b.events e).Idle := by
    rintro e he ⟨hnot, -⟩
    rw [he] at hnot
    cases hnot
  have hwaits : ∀ e, WaitsIo m e ↔ WaitsIo b.events e := fun e => by
    rw [WaitsIo, WaitsIo, hinserted]
    exact and_congr_right fun he => by rw [(hsame e (hbusy e he)).2.2.2]
  refine ⟨h.queues.of_events hflags hidx (fun e he => ⟨(hsame e he).1, (hsame e he).2.1⟩) hpri,
    h.io.congr_on (fun e he => (hsame e (hbusy e he.1)).2.2.1)
      (fun e he => (hsame e (hbusy e he.1)).2.2.2) (Set.ext hwaits),
    fun sig => (h.signals sig).congr fun e => ?_⟩
  rw [WaitsSignal, WaitsSignal, hinserted]
  exact and_congr_right fun he => by
    rw [(hsame e (hbusy e he)).2.2.2, (hsame e (hbusy e he)).2.2.1]

/-- One event changes that is in no queue. -/
theorem Wf.modify_idle (h : b.Wf) {f : Event → Event} (hidle : (b.events ev).Idle)
    (hf : (f (b.events ev)).Idle) (hidx : (f (b.events ev)).minHeapIdx = -1) :
    (b.modify ev f).Wf := by
  have hout := h.queues.heap.out ev fun hin => by
    have hin' : (b.events ev).evFlags.timeout = true := hin
    rw [hidle.2.2] at hin'
    cases hin'
  refine h.of_events (fun e queue => ?_) (fun e => ?_) (fun e he => ?_) fun e he => ?_
  · refine Events.update_eq (fun e => e.evFlags.has queue) ?_ e
    cases queue with
    | inserted => exact hf.1.trans hidle.1.symm
    | active => exact hf.2.1.trans hidle.2.1.symm
    | timeout => exact hf.2.2.trans hidle.2.2.symm
  · exact Events.update_eq Event.minHeapIdx (hidx.trans hout.symm) e
  · have hne : e ≠ ev := by
      rintro rfl
      exact he hidle
    rw [Function.update_of_ne hne]
    exact ⟨rfl, rfl, rfl, rfl⟩
  · have hne : e ≠ ev := by
      rintro rfl
      rw [hidle.2.1] at he
      cases he
    rw [Function.update_of_ne hne]

/-- The priority of an event changes that is not active. -/
theorem Wf.modify_pri (h : b.Wf) (hactive : (b.events ev).evFlags.active = false) (pri : ℕ) :
    (b.modify ev fun e => { e with evPri := pri }).Wf := by
  have hupdate : ∀ {α : Type} (g : Event → α), g { b.events ev with evPri := pri } =
      g (b.events ev) → ∀ e, g ((b.modify ev fun e => { e with evPri := pri }).events e) =
        g (b.events e) := fun g hg e => Events.update_eq g hg e
  refine h.of_events (fun e queue => hupdate (fun e => e.evFlags.has queue) rfl e)
    (hupdate Event.minHeapIdx rfl) (fun e _ => ⟨hupdate Event.evTimeout rfl e,
      hupdate (fun e => e.evFlags.internal) rfl e, hupdate Event.evFd rfl e,
      hupdate Event.evEvents rfl e⟩) fun e he => ?_
  · have hne : e ≠ ev := by
      rintro rfl
      rw [hactive] at he
      cases he
    rw [Function.update_of_ne hne]

/-! ### Soundness -/

/-- What all functions of the event base keep. -/
structure Sound (b : EventBase) : Prop where
  wf : b.Wf
  timely : Timely b.events
  pri : ∀ e, (b.events e).evPri < b.nactivequeues
  notify : ∃ n, b.thNotify = some n ∧ (b.events n).Wakes
  internal : ∀ e, (b.events e).evFlags.internal = true → b.thNotify = some e
  deferred : Listed b.deferredCbList fun cb => b.queued cb = true
  activeCount : b.activeCount = b.deferredCbList.length
  eventTv : b.eventTv.Normal
  tvCache : b.tvCache.Normal

theorem Sound.gettime (h : b.Sound) (hclock : clock.Normal) : (b.gettime clock).Normal := by
  unfold EventBase.gettime
  split
  · exact h.tvCache
  · exact hclock

/-- An event that is not the base's own is not the one of `th_notify`. -/
theorem Sound.ne_notify (h : b.Sound) (hev : (b.events ev).evFlags.internal = false) {n : EventPtr}
    (hn : b.thNotify = some n) : n ≠ ev := by
  rintro rfl
  obtain ⟨n', hn', hwakes⟩ := h.notify
  obtain rfl : n = n' := Option.some.inj (hn.symm.trans hn')
  rw [hwakes.internal] at hev
  cases hev

/-- An operation that leaves the event of `th_notify` waiting, and the times normal. -/
theorem Sound.does (h : b.Sound) {b' : EventBase} {m : Events} (d : Does b b' m)
    (ht : Timely m) (hn : ∀ n, b.thNotify = some n → (b.events n).Wakes →
      (m n).evFlags.inserted = true ∧ (m n).evFlags.timeout = false ∧
        (m n).evIoTimeout = evutilTimerclear) : b'.Sound := by
  have hnotify : b'.thNotify = b.thNotify := congrArg LoopState.thNotify d.loopState
  obtain ⟨n, hnn, hwakes⟩ := h.notify
  obtain ⟨hinserted, htimeout, hinterval⟩ := hn n hnn hwakes
  have hkind := d.kind n
  refine ⟨d.wf, ht.of_plain d.plain, d.pri_lt h.pri, ⟨n, hnotify.trans hnn, ?_⟩, fun e he => ?_,
    ?_, ?_, ?_, ?_⟩
  · exact ⟨(congrArg Kind.internal hkind).trans hwakes.internal,
      by rw [Events.evFlags_of_plain d.plain]; exact hinserted,
      by rw [Events.evFlags_of_plain d.plain]; exact htimeout,
      (congrArg Kind.evEvents hkind).trans hwakes.events,
      hwakes.nonneg.trans_eq (congrArg Kind.evFd hkind).symm,
      (congrArg Kind.evPri hkind).trans hwakes.pri,
      (congrArg Event.evIoTimeout (congrFun d.plain n)).trans hinterval⟩
  · rw [hnotify]
    exact h.internal e ((congrArg Kind.internal (d.kind e)).symm.trans he)
  · rw [d.loopState]
    exact h.deferred
  · rw [d.loopState]
    exact h.activeCount
  · rw [d.loopState]
    exact h.eventTv
  · rw [d.loopState]
    exact h.tvCache

/-- An operation on an event of the user. -/
theorem Sound.does_change (h : b.Sound) {b' : EventBase} {f : Event → Event}
    (d : Does b b' (b.events.change ev f)) (hev : (b.events ev).evFlags.internal = false)
    (ht : (f (b.events ev)).Timely) : b'.Sound := by
  refine h.does d (h.timely.change ht) fun n hn hwakes => ?_
  rw [Events.change_of_ne _ _ (h.ne_notify hev hn)]
  exact ⟨hwakes.inserted, hwakes.untimed, hwakes.interval⟩

/-! ### Calls -/

/-- No event is active with a priority above `i`. -/
def Above (b : EventBase) (i : ℕ) : Prop :=
  ∀ e, (b.events e).evFlags.active = true → i ≤ (b.events e).evPri

/-- Nothing has come up, in the queues, the deferred callbacks or the flags of the loop. -/
structure Still (b b' : EventBase) : Prop where
  quiet : Quiet b b'
  loopbreak : b'.eventBreak = true → b.eventBreak = true
  deferred : ∀ cb, b'.queued cb = true → b.queued cb = true

/-- What a call means for the loop. -/
structure Called (b b' : EventBase) (inThread : Bool) : Prop where
  running : b'.runningLoop = b.runningLoop
  priority : b'.eventRunningPriority = b.eventRunningPriority
  thNotify : b'.thNotify = b.thNotify
  eventTv : b'.eventTv = b.eventTv
  signals : Signals b b'
  entries : ∀ fd, (b.ioMap.io fd).isSome → (b'.ioMap.io fd).isSome
  wakes : ∀ n, b.thNotify = some n → (b'.events n).evFd = (b.events n).evFd
  continued : b'.eventContinue = true → b.eventContinue = true ∨
    0 < b.eventRunningPriority
  above : ∀ i : ℕ, b.eventRunningPriority = i → b.eventContinue = true ∨ b.Above i →
    b'.eventContinue = true ∨ b'.Above i
  told : Still b b' ∨
    (inThread = false → b.runningLoop = true → b'.isNotifyPending = true)

/-- What the thread of the loop relies on over its own operations. -/
structure Retains (b b' : EventBase) : Prop where
  running : b'.runningLoop = b.runningLoop
  priority : b'.eventRunningPriority = b.eventRunningPriority
  thNotify : b'.thNotify = b.thNotify
  signals : Signals b b'
  entries : ∀ fd, (b.ioMap.io fd).isSome → (b'.ioMap.io fd).isSome
  continued : b'.eventContinue = true → b.eventContinue = true ∨ 0 < b.eventRunningPriority

theorem Called.keeps {b' : EventBase} {inThread : Bool} (h : Called b b' inThread) : Retains b b' :=
  ⟨h.running, h.priority, h.thNotify, h.signals, h.entries, h.continued⟩

theorem Retains.refl (b : EventBase) : Retains b b :=
  ⟨rfl, rfl, rfl, Signals.refl b, fun _ => id, Or.inl⟩

theorem Retains.trans {b' b'' : EventBase} (h : Retains b b') (h' : Retains b' b'') :
    Retains b b'' where
  running := h'.running.trans h.running
  priority := h'.priority.trans h.priority
  thNotify := h'.thNotify.trans h.thNotify
  signals := by
    rcases h.signals with ⟨hp, hb⟩ | ⟨hsome, hp, hp', hb⟩
    · have hs := h'.signals
      rwa [Signals, hp, hb, h.thNotify] at hs
    · rcases h'.signals with ⟨hp₂, hb₂⟩ | ⟨-, hp₂, -⟩
      · exact Or.inr ⟨hsome, hp, hp₂.trans hp', hb₂.trans hb⟩
      · rw [hp'] at hp₂
        cases hp₂
  entries fd hfd := h'.entries fd (h.entries fd hfd)
  continued hc := (h'.continued hc).elim h.continued fun hlt => Or.inr (h.priority ▸ hlt)

/-- An event whose priority is above that of the running callback can only be one if that is
not the highest. -/
theorem Preempted.pos (h : b.Preempted) : 0 < b.eventRunningPriority := by
  obtain ⟨e, he⟩ := h
  omega

theorem Still.of_quiet {b' : EventBase} (h : Quiet b b')
    (hstate : b'.toLoopState = b.toLoopState) : Still b b' := by
  refine ⟨h, fun hb => ?_, fun cb hcb => ?_⟩
  · rwa [hstate] at hb
  · rwa [hstate] at hcb

theorem Does.above {b' : EventBase} {m : Events} (d : Does b b' m)
    (hactive : ∀ e, (b'.events e).evFlags.active = true → (b.events e).evFlags.active = true)
    {i : ℕ} (h : b.Above i) : b'.Above i := fun e he => by
  rw [show (b'.events e).evPri = (b.events e).evPri from congrArg Kind.evPri (d.kind e)]
  exact h e (hactive e he)

theorem Does.keeps {b' : EventBase} {m : Events} (d : Does b b' m) : Retains b b' where
  running := congrArg LoopState.runningLoop d.loopState
  priority := congrArg LoopState.eventRunningPriority d.loopState
  thNotify := congrArg LoopState.thNotify d.loopState
  signals := d.signals
  entries := d.entries
  continued hc := (d.continued hc).imp_right Preempted.pos

/-- What an operation of the queues means for the loop. -/
theorem Does.called {b' : EventBase} {m : Events} {inThread : Bool} (d : Does b b' m)
    (h : b.Sound) (htold : Told b b' inThread)
    (habove : ∀ i : ℕ, b.eventRunningPriority = i → b.Above i →
      b'.eventContinue = true ∨ b'.Above i) : Called b b' inThread where
  running := congrArg LoopState.runningLoop d.loopState
  priority := congrArg LoopState.eventRunningPriority d.loopState
  thNotify := congrArg LoopState.thNotify d.loopState
  eventTv := congrArg LoopState.eventTv d.loopState
  signals := d.signals
  entries := d.entries
  wakes n _ := congrArg Kind.evFd (d.kind n)
  continued hc := (d.continued hc).imp_right Preempted.pos
  above i hi hor := hor.elim (fun hc => Or.inl (d.continues hc)) (habove i hi)
  told := by
    obtain ⟨n, hn, -⟩ := h.notify
    exact htold.imp (fun hquiet => Still.of_quiet hquiet d.loopState) fun hpending hthread hrun =>
      hpending hthread hrun (by rw [hn]; rfl)

end EventBase

/-- A function of the event base that a thread may call. -/
inductive Call
  | add (granted : Granted) (ev : EventPtr) (tv : Option Timeval)
  | del (ev : EventPtr)
  | active (ev : EventPtr) (res : What) (ncalls : ℕ)
  | assign (ev : EventPtr) (fd : Socket) (events : What) (callback : Callback)
  | prioritySet (ev : EventPtr) (pri : ℤ)
  | loopbreak
  | schedule (cb : DeferredPtr)
  | cancel (cb : DeferredPtr)

/-- What the functions require: the event of `th_notify` is left alone, a time is a time, and an
event is assigned anew only while it is in no queue. -/
def Call.Allowed (b : EventBase) : Call → Prop
  | .add _ ev tv => (b.events ev).evFlags.internal = false ∧ ∀ t ∈ tv, t.Normal
  | .del ev | .active ev _ _ | .prioritySet ev _ => (b.events ev).evFlags.internal = false
  | .assign ev _ _ _ => (b.events ev).evFlags.internal = false ∧ (b.events ev).Idle
  | .loopbreak | .schedule _ | .cancel _ => True

instance (b : EventBase) : DecidablePred (Call.Allowed b)
  | .add _ ev tv =>
      inferInstanceAs (Decidable ((b.events ev).evFlags.internal = false ∧ ∀ t ∈ tv, t.Normal))
  | .del ev | .active ev _ _ | .prioritySet ev _ =>
      inferInstanceAs (Decidable ((b.events ev).evFlags.internal = false))
  | .assign ev _ _ _ => inferInstanceAs (Decidable ((b.events ev).evFlags.internal = false ∧
      (b.events ev).evFlags.inserted = false ∧ (b.events ev).evFlags.active = false ∧
      (b.events ev).evFlags.timeout = false))
  | .loopbreak | .schedule _ | .cancel _ => inferInstanceAs (Decidable True)

namespace EventBase

variable {b : EventBase} {ev : EventPtr} {clock : Timeval} {inThread : Bool}

/-- A call by the thread of the loop or by another one. -/
def call (b : EventBase) (clock : Timeval) (inThread : Bool) : Call → Option EventBase
  | .add granted ev tv =>
      (b.eventAddInternal granted clock inThread ev tv false).map Prod.fst
  | .del ev => b.eventDelInternal inThread ev
  | .active ev res ncalls => b.eventActiveNolock inThread ev res ncalls
  | .assign ev fd events callback => some (b.eventAssign ev fd events callback).1
  | .prioritySet ev pri => some (b.eventPrioritySet ev pri).1
  | .loopbreak => some (b.eventBaseLoopbreak inThread)
  | .schedule cb => some (b.eventDeferredCbSchedule inThread cb)
  | .cancel cb => some (b.eventDeferredCbCancel cb)

/-- A call that succeeds. -/
def Succeeds (b : EventBase) (clock : Timeval) (inThread : Bool) (c : Call) : Prop :=
  ∃ b', b.call clock inThread c = some b' ∧ b'.Sound ∧ Called b b' inThread

theorem Sound.dueAt (h : b.Sound) (hclock : clock.Normal) {tv : Timeval} (htv : tv.Normal)
    (tvIsAbsolute : Bool) : (b.dueAt clock tv tvIsAbsolute).Normal := by
  unfold EventBase.dueAt
  split
  · exact htv
  · exact (h.gettime hclock).timeradd htv

theorem Sound.timely_added (h : b.Sound) (hclock : clock.Normal) {tv : Option Timeval}
    (htv : ∀ t ∈ tv, t.Normal) (tvIsAbsolute : Bool) (ev : EventPtr) :
    (b.added clock tv tvIsAbsolute (b.events ev)).Timely := by
  cases tv with
  | none => exact (h.timely ev).entered
  | some t => exact (h.timely ev).entered.timed (htv t rfl) (h.dueAt hclock (htv t rfl) _)

/-- What is active after an event has been added was active before. -/
theorem active_added {tv : Option Timeval} {tvIsAbsolute : Bool} {e : Event}
    (h : (b.added clock tv tvIsAbsolute e).evFlags.active = true) : e.evFlags.active = true := by
  cases tv with
  | none => rwa [added, e.entered_frame.1] at h
  | some t =>
      have hactive : (e.entered.evFlags.active && !e.entered.evRes.timeout) = true := h
      rw [e.entered_frame.1] at hactive
      exact (Bool.and_eq_true_iff.mp hactive).1

/-- An operation on one event that does not make it active. -/
theorem Does.above_change {b' : EventBase} {f : Event → Event}
    (d : Does b b' (b.events.change ev f))
    (hf : (f (b.events ev)).evFlags.active = true → (b.events ev).evFlags.active = true) {i : ℕ}
    (h : b.Above i) : b'.Above i := by
  refine d.above (fun e he => ?_) h
  rw [Events.evFlags_of_plain d.plain] at he
  by_cases hev : e = ev
  · subst hev
    rw [Events.change_self] at he
    exact hf he
  · rwa [Events.change_of_ne _ _ hev] at he

theorem Sound.call_add (h : b.Sound) (hclock : clock.Normal) (granted : Granted)
    {tv : Option Timeval} (hev : (b.events ev).evFlags.internal = false)
    (htv : ∀ t ∈ tv, t.Normal) : b.Succeeds clock inThread (.add granted ev tv) := by
  obtain ⟨b', r, hrun, hcases⟩ := h.wf.eventAddInternal granted clock inThread ev tv false
  refine ⟨b', by rw [EventBase.call, hrun]; rfl, ?_⟩
  rcases hcases with ⟨-, d, hquiet⟩ | ⟨-, d, htold⟩
  · exact ⟨h.does d h.timely fun n _ hw => ⟨hw.inserted, hw.untimed, hw.interval⟩,
      d.called h (Or.inl hquiet) fun i _ ha => Or.inr (d.above hquiet.active ha)⟩
  · exact ⟨h.does_change d hev (h.timely_added hclock htv false ev),
      d.called h htold fun i _ ha => Or.inr (d.above_change active_added ha)⟩

theorem Sound.call_del (h : b.Sound) (hev : (b.events ev).evFlags.internal = false) :
    b.Succeeds clock inThread (.del ev) := by
  obtain ⟨b', hrun, d, -, -, hquiet⟩ := h.wf.eventDelInternal inThread ev
  exact ⟨b', hrun, h.does_change d hev (h.timely ev).unqueued,
    d.called h (Or.inl hquiet) fun i _ ha => Or.inr (d.above hquiet.active ha)⟩

/-- Activating an event, of whatever kind. -/
theorem Sound.eventActiveNolock (h : b.Sound) (inThread : Bool) (ev : EventPtr) (res : What)
    (ncalls : ℕ) : ∃ b', b.eventActiveNolock inThread ev res ncalls = some b' ∧ b'.Sound ∧
      Does b b' (b.events.change ev (Event.activated res ncalls)) ∧ Called b b' inThread := by
  obtain ⟨b', hrun, d, -, htold, hyield⟩ :=
    h.wf.eventActiveNolock inThread ev res ncalls (h.pri ev)
  have hframe : ∀ e : Event, (e.activated res ncalls).evFlags.inserted = e.evFlags.inserted ∧
      (e.activated res ncalls).evFlags.timeout = e.evFlags.timeout ∧
      (e.activated res ncalls).evIoTimeout = e.evIoTimeout := fun e => by
    unfold Event.activated
    split <;> exact ⟨rfl, rfl, rfl⟩
  refine ⟨b', hrun, h.does d (h.timely.change ((h.timely ev).activated res ncalls))
    fun n _ hw => ?_, d, d.called h htold fun i hi ha => ?_⟩
  · have hkeeps : ∀ {α : Type} (g : Event → α),
        (∀ e : Event, g (e.activated res ncalls) = g e) →
        g (b.events.change ev (Event.activated res ncalls) n) = g (b.events n) :=
      fun g hg => Events.update_eq g (hg _) n
    exact ⟨(hkeeps (fun e => e.evFlags.inserted) fun e => (hframe e).1).trans hw.inserted,
      (hkeeps (fun e => e.evFlags.timeout) fun e => (hframe e).2.1).trans hw.untimed,
      (hkeeps Event.evIoTimeout fun e => (hframe e).2.2).trans hw.interval⟩
  · cases hactive : (b.events ev).evFlags.active with
    | true => exact Or.inr (d.above_change (fun _ => hactive) ha)
    | false =>
        by_cases hlt : ((b.events ev).evPri : ℤ) < b.eventRunningPriority
        · exact Or.inl (hyield hactive hlt)
        · refine Or.inr fun e he => ?_
          rw [show (b'.events e).evPri = (b.events e).evPri from congrArg Kind.evPri (d.kind e)]
          rw [Events.evFlags_of_plain d.plain] at he
          by_cases hev : e = ev
          · subst hev
            omega
          · rw [Events.change_of_ne _ _ hev] at he
            exact ha e he

/-! ### Calls that leave the queues alone -/

/-- Only the deferred callbacks and the flags that end the loop are different. -/
structure LoopOnly (b b' : EventBase) : Prop where
  toQueues : b'.toQueues = b.toQueues
  ioMap : b'.ioMap = b.ioMap
  running : b'.runningLoop = b.runningLoop
  priority : b'.eventRunningPriority = b.eventRunningPriority
  thNotify : b'.thNotify = b.thNotify
  eventTv : b'.eventTv = b.eventTv
  pending : b'.isNotifyPending = b.isNotifyPending
  bytes : b'.thNotifyBytes = b.thNotifyBytes
  eventContinue : b'.eventContinue = b.eventContinue

theorem LoopOnly.quiet {b' : EventBase} (hl : LoopOnly b b') : Quiet b b' := by
  refine ⟨fun e he => ?_, fun d => ?_, fun e he => ⟨e, ?_⟩⟩
  · rwa [hl.toQueues] at he
  · rw [hl.ioMap]
  · rw [hl.toQueues] at he ⊢
    exact ⟨he, le_rfl⟩

theorem LoopOnly.called {b' : EventBase} (hl : LoopOnly b b')
    (htold : Still b b' ∨
      (inThread = false → b.runningLoop = true → b'.isNotifyPending = true)) :
    Called b b' inThread where
  running := hl.running
  priority := hl.priority
  thNotify := hl.thNotify
  eventTv := hl.eventTv
  signals := Or.inl ⟨hl.pending, hl.bytes⟩
  entries fd hfd := by
    rw [hl.ioMap]
    exact hfd
  wakes n _ := by rw [hl.toQueues]
  continued hc := Or.inl (hl.eventContinue ▸ hc)
  above i _ hor := by
    rw [hl.eventContinue, Above, hl.toQueues]
    exact hor
  told := htold

/-- The loop is told afterwards. -/
theorem LoopOnly.called_notify {b' : EventBase} (hl : LoopOnly b b') (h : b.Sound)
    (h' : b'.Sound) : (b'.notifyIf inThread true).Sound ∧
      Called b (b'.notifyIf inThread true) inThread := by
  have d := h'.wf.does_notifyIf inThread true
  obtain ⟨n, hn, -⟩ := h.notify
  refine ⟨h'.does d h'.timely fun n _ hw => ⟨hw.inserted, hw.untimed, hw.interval⟩, ?_⟩
  have hcalled : Called b' (b'.notifyIf inThread true) inThread :=
    d.called h' (told_notifyIf rfl (by rintro ⟨⟩)) fun i _ ha => Or.inr (d.above (fun e he => by
      rwa [notifyIf_toQueues] at he) ha)
  refine ⟨hcalled.running.trans hl.running, hcalled.priority.trans hl.priority,
    hcalled.thNotify.trans hl.thNotify, hcalled.eventTv.trans hl.eventTv, ?_, fun fd hfd => ?_,
    fun n hnn => ?_, fun hc => ?_, fun i hi hor => ?_, Or.inr fun hthread hrun => ?_⟩
  · have hsignals := hcalled.signals
    rwa [Signals, hl.pending, hl.bytes, hl.thNotify] at hsignals
  · refine hcalled.entries fd ?_
    rwa [hl.ioMap]
  · rw [hcalled.wakes n (hl.thNotify.trans hnn), hl.toQueues]
  · rw [← hl.eventContinue, ← hl.priority]
    exact hcalled.continued hc
  · refine hcalled.above i (hl.priority.trans hi) ?_
    rw [hl.eventContinue, Above, hl.toQueues]
    exact hor
  · subst hthread
    refine notifyIf_pending (hl.running.trans hrun) ?_
    rw [hl.thNotify, hn]
    rfl

theorem Sound.call_loopbreak (h : b.Sound) : b.Succeeds clock inThread .loopbreak := by
  have h' : ({ b with eventBreak := true } : EventBase).Sound :=
    ⟨⟨h.wf.queues, h.wf.io, h.wf.signals⟩, h.timely, h.pri, h.notify, h.internal, h.deferred,
      h.activeCount, h.eventTv, h.tvCache⟩
  exact ⟨_, rfl, LoopOnly.called_notify ⟨rfl, rfl, rfl, rfl, rfl, rfl, rfl, rfl, rfl⟩ h h'⟩

theorem Sound.call_schedule (h : b.Sound) (cb : DeferredPtr) :
    b.Succeeds clock inThread (.schedule cb) := by
  rw [Succeeds]
  simp only [EventBase.call, eventDeferredCbSchedule]
  cases hqueued : b.queued cb with
  | true =>
      exact ⟨b, rfl, h, LoopOnly.called ⟨rfl, rfl, rfl, rfl, rfl, rfl, rfl, rfl, rfl⟩
        (Or.inl ⟨Quiet.refl b, id, fun _ => id⟩)⟩
  | false =>
      rw [if_neg Bool.false_ne_true]
      refine ⟨_, rfl, LoopOnly.called_notify ⟨rfl, rfl, rfl, rfl, rfl, rfl, rfl, rfl, rfl⟩ h ?_⟩
      refine ⟨⟨h.wf.queues, h.wf.io, h.wf.signals⟩, h.timely, h.pri, h.notify, h.internal,
        h.deferred.append (by simp [hqueued]) fun cb' => ?_, ?_, h.eventTv, h.tvCache⟩
      · by_cases hcb : cb' = cb
        · simp [hcb]
        · simp [hcb]
      · have hcount := h.activeCount
        simp only [List.length_append, List.length_singleton]
        push_cast
        omega

/-- Taking a deferred callback from the queue. -/
theorem Sound.removeDeferred (h : b.Sound) {cb : DeferredPtr} (hqueued : b.queued cb = true) :
    (b.removeDeferred cb).Sound := by
  have hmem : cb ∈ b.deferredCbList := (h.deferred.2 cb).mpr hqueued
  refine ⟨⟨h.wf.queues, h.wf.io, h.wf.signals⟩, h.timely, h.pri, h.notify, h.internal,
    h.deferred.erase fun cb' => ?_, ?_, h.eventTv, h.tvCache⟩
  · by_cases hcb : cb' = cb
    · simp [EventBase.removeDeferred, hcb]
    · simp [EventBase.removeDeferred, hcb]
  · have hcount := h.activeCount
    have hpos := List.length_pos_of_mem hmem
    simp only [EventBase.removeDeferred, List.length_erase_of_mem hmem]
    omega

theorem Sound.call_cancel (h : b.Sound) (cb : DeferredPtr) :
    b.Succeeds clock inThread (.cancel cb) := by
  rw [Succeeds]
  simp only [EventBase.call, eventDeferredCbCancel]
  cases hqueued : b.queued cb with
  | false =>
      exact ⟨b, rfl, h, LoopOnly.called ⟨rfl, rfl, rfl, rfl, rfl, rfl, rfl, rfl, rfl⟩
        (Or.inl ⟨Quiet.refl b, id, fun _ => id⟩)⟩
  | true =>
      rw [if_pos rfl]
      have hl : LoopOnly b (b.removeDeferred cb) := ⟨rfl, rfl, rfl, rfl, rfl, rfl, rfl, rfl, rfl⟩
      refine ⟨_, rfl, h.removeDeferred hqueued, hl.called (Or.inl ⟨hl.quiet, id, fun cb' => ?_⟩)⟩
      by_cases hcb : cb' = cb
      · rw [hcb]
        exact fun _ => hqueued
      · simp [EventBase.removeDeferred, hcb]

/-! ### Assigning -/

/-- Nothing changes but one event of the user that is not active. -/
theorem Sound.modify (h : b.Sound) {f : Event → Event}
    (hev : (b.events ev).evFlags.internal = false) (hidle : (b.events ev).evFlags.active = false)
    (hwf : (b.modify ev f).Wf) (ht : (f (b.events ev)).Timely)
    (hpri : (f (b.events ev)).evPri < b.nactivequeues)
    (hinternal : (f (b.events ev)).evFlags.internal = false)
    (hactive : (f (b.events ev)).evFlags.active = false)
    (htimeout : (f (b.events ev)).evFlags.timeout = (b.events ev).evFlags.timeout)
    (hdue : (b.events ev).evFlags.timeout = true →
      (f (b.events ev)).evTimeout = (b.events ev).evTimeout) :
    (b.modify ev f).Sound ∧ Called b (b.modify ev f) inThread := by
  have hother : ∀ {e}, e ≠ ev → (b.modify ev f).events e = b.events e := fun he =>
    Function.update_of_ne he ..
  have hself : (b.modify ev f).events ev = f (b.events ev) := modify_self f
  have hsame : ∀ e, ((b.modify ev f).events e).evFlags.active = (b.events e).evFlags.active := by
    intro e
    by_cases he : e = ev
    · rw [he, hself, hactive, hidle]
    · rw [hother he]
  obtain ⟨n, hn, hwakes⟩ := h.notify
  have hne := h.ne_notify hev hn
  refine ⟨⟨hwf, h.timely.change ht, fun e => ?_, ⟨n, hn, by rwa [hother hne]⟩, fun e he => ?_,
    h.deferred, h.activeCount, h.eventTv, h.tvCache⟩, rfl, rfl, rfl, rfl, Or.inl ⟨rfl, rfl⟩,
    fun _ => id, fun n' hn' => ?_, Or.inl, fun i _ hor => hor.imp id fun ha e he => ?_,
    Or.inl ⟨⟨fun e he => ?_, fun _ => subset_rfl, fun e he => ⟨e, ?_⟩⟩, id, fun _ => id⟩⟩
  · by_cases he : e = ev
    · rw [he, hself]
      exact hpri
    · rw [hother he]
      exact h.pri e
  · by_cases hee : e = ev
    · rw [hee, hself, hinternal] at he
      cases he
    · rw [hother hee] at he
      exact h.internal e he
  · rw [hother (h.ne_notify hev hn')]
  · have hee : e ≠ ev := by
      rintro rfl
      rw [hself, hactive] at he
      cases he
    rw [hother hee] at he ⊢
    exact ha e he
  · rwa [hsame] at he
  · by_cases hee : e = ev
    · subst hee
      rw [hself, htimeout] at he
      rw [hself, hdue he]
      exact ⟨he, le_rfl⟩
    · rw [hother hee] at he ⊢
      exact ⟨he, le_rfl⟩

theorem Sound.call_prioritySet (h : b.Sound) (hev : (b.events ev).evFlags.internal = false)
    (pri : ℤ) : b.Succeeds clock inThread (.prioritySet ev pri) := by
  have hrefl : Called b b inThread :=
    LoopOnly.called ⟨rfl, rfl, rfl, rfl, rfl, rfl, rfl, rfl, rfl⟩
      (Or.inl ⟨Quiet.refl b, id, fun _ => id⟩)
  rw [Succeeds]
  simp only [EventBase.call, eventPrioritySet]
  cases hactive : (b.events ev).evFlags.active with
  | true => exact ⟨b, rfl, h, hrefl⟩
  | false =>
      rw [if_neg Bool.false_ne_true]
      by_cases hrange : pri < 0 ∨ pri ≥ b.nactivequeues
      · rw [if_pos hrange]
        exact ⟨b, rfl, h, hrefl⟩
      · rw [if_neg hrange]
        exact ⟨_, rfl, h.modify hev hactive (h.wf.modify_pri hactive _)
          ⟨(h.timely ev).timeout, (h.timely ev).interval, (h.timely ev).again⟩
          (by dsimp only; omega) hev hactive rfl fun _ => rfl⟩

theorem eventAssign_eq (fd : Socket) (events : What) (callback : Callback) :
    (b.eventAssign ev fd events callback).1 =
      b.modify ev (Event.assigned fd events callback (b.nactivequeues / 2)) := by
  unfold eventAssign
  split
  · rename_i hbad
    exact modify_congr (by rw [Event.assigned, if_pos hbad])
  · rename_i hgood
    simp only [modify_modify]
    exact modify_congr (by rw [Event.assigned, if_neg hgood]; rfl)

theorem Sound.call_assign (h : b.Sound) (hev : (b.events ev).evFlags.internal = false)
    (hidle : (b.events ev).Idle) (fd : Socket) (events : What) (callback : Callback) :
    b.Succeeds clock inThread (.assign ev fd events callback) := by
  refine ⟨_, rfl, ?_⟩
  rw [eventAssign_eq]
  obtain ⟨hflags, htimeout, hcases⟩ :=
    Event.assigned_cases fd events callback (b.nactivequeues / 2) (b.events ev)
  set e := (b.events ev).assigned fd events callback (b.nactivequeues / 2) with he
  have hidle' : e.Idle := by
    rw [Event.Idle, hflags]
    exact ⟨rfl, rfl, rfl⟩
  have hout := h.wf.queues.heap.out ev fun hin => by
    have hin' : (b.events ev).evFlags.timeout = true := hin
    rw [hidle.2.2] at hin'
    cases hin'
  have hpos : 0 < b.nactivequeues := (Nat.zero_le _).trans_lt (h.pri ev)
  have hnormal : Timeval.Normal evutilTimerclear := by decide
  have ht : e.Timely := by
    rcases hcases with ⟨-, -, hclosure, hinterval⟩ | ⟨-, -, hinterval⟩
    · refine ⟨fun hin => ?_, fun hc => ?_, fun hc hne => ?_⟩
      · rw [hflags] at hin
        cases hin
      · rw [hinterval]
        exact (h.timely ev).interval (hclosure ▸ hc)
      · rw [htimeout]
        exact (h.timely ev).again (hclosure ▸ hc) (hinterval ▸ hne)
    · refine ⟨fun hin => ?_, fun hc => ?_, fun hc hne => absurd (hinterval hc) hne⟩
      · rw [hflags] at hin
        cases hin
      · rw [hinterval hc]
        exact hnormal
  refine h.modify hev hidle.2.1 (h.wf.modify_idle hidle hidle' ?_) ht ?_ ?_ hidle'.2.1
    (hidle'.2.2.trans hidle.2.2.symm) fun hin => ?_
  · rcases hcases with ⟨hidx, -⟩ | ⟨hidx, -⟩
    · exact hidx.trans hout
    · exact hidx
  · rcases hcases with ⟨-, hpri, -⟩ | ⟨-, hpri, -⟩
    · exact hpri.trans_lt (h.pri ev)
    · rw [← he, hpri]
      omega
  · rw [← he, hflags]
  · rw [hidle.2.2] at hin
    cases hin

/-- **Calls.** Every call that is allowed succeeds, and keeps the event base sound. -/
theorem Sound.call (h : b.Sound) (hclock : clock.Normal) {c : Call} (hc : c.Allowed b) :
    b.Succeeds clock inThread c := by
  cases c with
  | add granted ev tv => exact h.call_add hclock granted hc.1 hc.2
  | del ev => exact h.call_del hc
  | active ev res ncalls =>
      obtain ⟨b', hrun, hsound, -, hcalled⟩ := h.eventActiveNolock inThread ev res ncalls
      exact ⟨b', hrun, hsound, hcalled⟩
  | assign ev fd events callback => exact h.call_assign hc.1 hc.2 fd events callback
  | prioritySet ev pri => exact h.call_prioritySet hc pri
  | loopbreak => exact h.call_loopbreak
  | schedule cb => exact h.call_schedule cb
  | cancel cb => exact h.call_cancel cb

end EventBase

end EventLoop

end IocpEcho
