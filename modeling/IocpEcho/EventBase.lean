import IocpEcho.Evmap
import Mathlib.Algebra.BigOperators.Group.Finset.Basic

/-!
# The Event Base

What `event.c` does to an event base while its lock is held: adding, deleting and activating
events, and the handling of the timeouts. An event can be in three queues at once, and a flag
says for each of them whether it is: `eventqueue` has the events that wait for a socket or a
signal, the heap those that wait for a time, and `activequeues` those whose callback is to be
run, by priority.

A function is `none` when the source stops the program with `event_errx` or fails an
assertion, or when a queue or the heap would be accessed out of bounds. The common timeouts,
which nothing in the repository sets up, are left out, and so are the delivery of signals by the
system and the writes of debug messages. A thread that would have to wait for a callback to end
may go on at any time, which allows more runs than the source has.
-/

namespace IocpEcho

namespace EventLoop

/-- The queues of an event base: `EVLIST_INSERTED`, `EVLIST_ACTIVE` and `EVLIST_TIMEOUT`. -/
inductive Queue
  | inserted
  | active
  | timeout
  deriving DecidableEq

/-- `ev->ev_flags & queue`. -/
def EvFlags.has (f : EvFlags) : Queue → Bool
  | .inserted => f.inserted
  | .active => f.active
  | .timeout => f.timeout

def EvFlags.set (f : EvFlags) (v : Bool) : Queue → EvFlags
  | .inserted => { f with inserted := v }
  | .active => { f with active := v }
  | .timeout => { f with timeout := v }

/-- `ev->ev_res |= res`. -/
def What.or (a b : What) : What where
  timeout := a.timeout || b.timeout
  read := a.read || b.read
  write := a.write || b.write
  signal := a.signal || b.signal
  persist := a.persist || b.persist

/-- `ev->ev_events & events`. -/
def What.and (a b : What) : What where
  timeout := a.timeout && b.timeout
  read := a.read && b.read
  write := a.write && b.write
  signal := a.signal && b.signal
  persist := a.persist && b.persist

/-- The address of a `struct deferred_cb`. -/
abbrev DeferredPtr := ℕ

/-- The queues of `struct event_base` with their counters, and the events of the program. -/
structure Queues where
  eventCount : ℤ
  eventCountActive : ℤ
  activequeues : ℕ → List EventPtr
  nactivequeues : ℕ
  eventqueue : List EventPtr
  timeheap : MinHeap
  events : Events

/-- The fields of `struct event_base` that adding, deleting and activating events leave alone:
the state of the loop and of the deferred callbacks. `thNotify` is the event of `th_notify`
once the base has been made notifiable, and `signalCall` the last call of
`event_signal_closure`, which is running if `signalRunning`. -/
structure LoopState where
  virtualEventCount : ℤ
  eventGotterm : Bool
  eventBreak : Bool
  eventRunningPriority : ℤ
  runningLoop : Bool
  deferredCbList : List DeferredPtr
  queued : DeferredPtr → Bool
  activeCount : ℤ
  eventTv : Timeval
  tvCache : Timeval
  currentEvent : Option EventPtr
  thNotify : Option EventPtr
  signalRunning : Bool
  signalCall : ℕ

/-- `struct event_base`. `thNotifyBytes` are the bytes that lie in the socket pair of
`th_notify`. `signalNcalls` is the counter of the running call of `event_signal_closure`;
`staleWrite` records that such a counter was written to after its call had ended. -/
structure EventBase extends Queues, LoopState where
  ioMap : IoMap
  sigmap : Socket → List EventPtr
  eventContinue : Bool
  isNotifyPending : Bool
  thNotifyBytes : ℕ
  signalNcalls : ℕ
  staleWrite : Bool

/-- The memory that is granted while an event is added. -/
structure Granted where
  heap : Bool
  entry : Bool

/-! ### Queues -/

namespace Queues

/-- Write to an event. -/
def modify (q : Queues) (ev : EventPtr) (f : Event → Event) : Queues :=
  { q with events := Function.update q.events ev (f (q.events ev)) }

/-- `if (~ev->ev_flags & EVLIST_INTERNAL) base->event_count += d`. -/
def count (q : Queues) (ev : EventPtr) (d : ℤ) : Queues :=
  if (q.events ev).evFlags.internal then q else { q with eventCount := q.eventCount + d }

/-- `ev->ev_flags |= queue` or `ev->ev_flags &= ~queue`. -/
def setFlag (q : Queues) (ev : EventPtr) (queue : Queue) (v : Bool) : Queues :=
  q.modify ev fun e => { e with evFlags := e.evFlags.set v queue }

/-- `event_queue_insert`, after the flag has been set. The reserving of memory in
`min_heap_push` has nothing to do, since `event_add_internal` has reserved it. -/
def insertInto (q : Queues) (ev : EventPtr) : Queue → Option Queues
  | .inserted => some { q with eventqueue := q.eventqueue ++ [ev] }
  | .active =>
      let pri := (q.events ev).evPri
      if pri < q.nactivequeues then
        some { q with
          eventCountActive := q.eventCountActive + 1
          activequeues := Function.update q.activequeues pri (q.activequeues pri ++ [ev]) }
      else none
  | .timeout =>
      (minHeapPush q.timeheap q.events ev).map fun r =>
        { q with timeheap := r.1, events := r.2 }

/-- `event_queue_insert`. -/
def eventQueueInsert (q : Queues) (ev : EventPtr) (queue : Queue) : Option Queues :=
  if (q.events ev).evFlags.has queue then if queue = .active then some q else none
  else ((q.count ev 1).setFlag ev queue true).insertInto ev queue

/-- `event_queue_remove`, after the flag has been cleared. -/
def removeFrom (q : Queues) (ev : EventPtr) : Queue → Option Queues
  | .inserted => some { q with eventqueue := q.eventqueue.erase ev }
  | .active =>
      let pri := (q.events ev).evPri
      if pri < q.nactivequeues then
        some { q with
          eventCountActive := q.eventCountActive - 1
          activequeues := Function.update q.activequeues pri ((q.activequeues pri).erase ev) }
      else none
  | .timeout =>
      (minHeapErase q.timeheap q.events ev).map fun r =>
        { q with timeheap := r.1, events := r.2.1 }

/-- `event_queue_remove`. -/
def eventQueueRemove (q : Queues) (ev : EventPtr) (queue : Queue) : Option Queues :=
  if (q.events ev).evFlags.has queue then
    ((q.count ev (-1)).setFlag ev queue false).removeFrom ev queue
  else none

/-- Remove the event from a queue if it is there. -/
def removeIfQueued (q : Queues) (ev : EventPtr) (queue : Queue) : Option Queues :=
  if (q.events ev).evFlags.has queue then q.eventQueueRemove ev queue else some q

end Queues

namespace EventBase

/-- Change the queues. -/
def onQueues (b : EventBase) (f : Queues → Option Queues) : Option EventBase :=
  (f b.toQueues).map fun q => { b with toQueues := q }

/-- Write to an event. -/
def modify (b : EventBase) (ev : EventPtr) (f : Event → Event) : EventBase :=
  { b with toQueues := b.toQueues.modify ev f }

/-- `N_ACTIVE_CALLBACKS`. -/
def nActiveCallbacks (b : EventBase) : ℤ := b.eventCountActive + b.activeCount

/-- `event_haveevents`. -/
def eventHaveevents (b : EventBase) : Bool := b.virtualEventCount > 0 || b.eventCount > 0

/-- `gettime`, when the clock of the system shows `clock`. -/
def gettime (b : EventBase) (clock : Timeval) : Timeval :=
  if b.tvCache.tvSec ≠ 0 then b.tvCache else clock

/-- `clear_time_cache`. -/
def clearTimeCache (b : EventBase) : EventBase :=
  { b with tvCache := { b.tvCache with tvSec := 0 } }

/-- `update_time_cache`. -/
def updateTimeCache (b : EventBase) (clock : Timeval) : EventBase :=
  { b with tvCache := b.clearTimeCache.gettime clock }

/-! ### Adding, deleting, activating -/

/-- `EVBASE_NEED_NOTIFY`. -/
def needNotify (b : EventBase) (inThread : Bool) : Bool := b.runningLoop && !inThread

/-- `evthread_notify_base`, with `evthread_notify_base_default`. -/
def evthreadNotifyBase (b : EventBase) : EventBase :=
  if b.thNotify.isNone || b.isNotifyPending then b
  else { b with isNotifyPending := true, thNotifyBytes := b.thNotifyBytes + 1 }

/-- `if (notify && EVBASE_NEED_NOTIFY(base)) evthread_notify_base(base)`. -/
def notifyIf (b : EventBase) (inThread notify : Bool) : EventBase :=
  if notify && b.needNotify inThread then b.evthreadNotifyBase else b

/-- `if (ev->ev_ncalls && ev->ev_pncalls) *ev->ev_pncalls = 0`, for an event with `EV_SIGNAL`. -/
def abortLoop (b : EventBase) (ev : EventPtr) : EventBase :=
  let e := b.events ev
  if e.evEvents.signal && e.evNcalls != 0 then
    match e.evPncalls with
    | none => b
    | some call =>
        if b.signalRunning && call == b.signalCall then { b with signalNcalls := 0 }
        else { b with staleWrite := true }
  else b

/-- The part of `event_add_internal` that enters the event for its socket or its signal, with
`res` and `notify`. -/
def addInserted (b : EventBase) (granted : Granted) (ev : EventPtr) :
    Option (EventBase × ℤ × Bool) :=
  let e := b.events ev
  if (e.evEvents.read || e.evEvents.write || e.evEvents.signal) &&
      !(e.evFlags.inserted || e.evFlags.active) then
    if e.evEvents.read || e.evEvents.write then do
      let r ← evmapIoAdd granted.entry b.events b.ioMap e.evFd ev
      let b := { b with ioMap := r.1 }
      if r.2 = -1 then pure (b, -1, false)
      else do
        let b ← b.onQueues (·.eventQueueInsert ev .inserted)
        pure (b, 0, r.2 == 1)
    else do
      let sigmap := Function.update b.sigmap e.evFd (b.sigmap e.evFd ++ [ev])
      let b : EventBase := { b with sigmap := sigmap }
      let b ← b.onQueues (·.eventQueueInsert ev .inserted)
      pure (b, 0, true)
  else some (b, 0, false)

/-- `if ((ev->ev_flags & EVLIST_ACTIVE) && (ev->ev_res & EV_TIMEOUT))`, the event is no longer
active. -/
def removeActiveTimeout (b : EventBase) (ev : EventPtr) : Option EventBase :=
  if (b.events ev).evFlags.active && (b.events ev).evRes.timeout then
    (b.abortLoop ev).onQueues (·.eventQueueRemove ev .active)
  else some b

/-- `if (ev->ev_closure == EV_CLOSURE_PERSIST && !tv_is_absolute) ev->ev_io_timeout = *tv`. -/
def setIoTimeout (b : EventBase) (ev : EventPtr) (tv : Timeval) (tvIsAbsolute : Bool) :
    EventBase :=
  if (b.events ev).evClosure == .persist && !tvIsAbsolute then
    b.modify ev fun e => { e with evIoTimeout := tv }
  else b

/-- The part of `event_add_internal` that sets the timeout, with `notify`. -/
def addTimeout (b : EventBase) (clock : Timeval) (ev : EventPtr) (tv : Timeval)
    (tvIsAbsolute : Bool) : Option (EventBase × Bool) := do
  let b := b.setIoTimeout ev tv tvIsAbsolute
  let notify := (b.events ev).evFlags.timeout && minHeapEltIsTop b.events ev
  let b ← b.onQueues (·.removeIfQueued ev .timeout)
  let b ← b.removeActiveTimeout ev
  let now := b.gettime clock
  let b := b.modify ev fun e =>
    { e with evTimeout := if tvIsAbsolute then tv else evutilTimeradd now tv }
  let b ← b.onQueues (·.eventQueueInsert ev .timeout)
  pure (b, notify || minHeapEltIsTop b.events ev)

/-- The part of `event_add_internal` that reserves room in the heap; `none` for its `-1`. -/
def reserve (b : EventBase) (granted : Granted) (ev : EventPtr) (tv : Option Timeval) :
    Option EventBase :=
  if tv.isSome && !(b.events ev).evFlags.timeout then
    (minHeapReserve granted.heap b.timeheap (1 + b.timeheap.n)).map fun s =>
      { b with timeheap := s }
  else some b

/-- `event_add_internal` after the event has been entered: the timeout, and the notification. -/
def addRest (b : EventBase) (clock : Timeval) (inThread : Bool) (ev : EventPtr)
    (tv : Option Timeval) (tvIsAbsolute notify : Bool) : Option (EventBase × ℤ) :=
  match tv with
  | none => some (b.notifyIf inThread notify, 0)
  | some tv => do
      let r ← b.addTimeout clock ev tv tvIsAbsolute
      pure (r.1.notifyIf inThread (notify || r.2), 0)

/-- `event_add_internal`, with what it returns. -/
def eventAddInternal (b : EventBase) (granted : Granted) (clock : Timeval) (inThread : Bool)
    (ev : EventPtr) (tv : Option Timeval) (tvIsAbsolute : Bool) : Option (EventBase × ℤ) :=
  match b.reserve granted ev tv with
  | none => some (b, -1)
  | some b => do
      let r ← b.addInserted granted ev
      if r.2.1 = -1 then pure (r.1, -1)
      else r.1.addRest clock inThread ev tv tvIsAbsolute r.2.2

/-- The part of `event_del_internal` that takes the event from its socket or its signal, with
`notify`. -/
def delInserted (b : EventBase) (ev : EventPtr) : Option (EventBase × Bool) :=
  if (b.events ev).evFlags.inserted then do
    let b ← b.onQueues (·.eventQueueRemove ev .inserted)
    let e := b.events ev
    if e.evEvents.read || e.evEvents.write then do
      let r ← evmapIoDel b.events b.ioMap e.evFd ev
      pure ({ b with ioMap := r.1 }, r.2 == 1)
    else
      let sigmap := Function.update b.sigmap e.evFd ((b.sigmap e.evFd).erase ev)
      pure ({ b with sigmap := sigmap }, true)
  else some (b, false)

/-- `event_del_internal`. -/
def eventDelInternal (b : EventBase) (inThread : Bool) (ev : EventPtr) : Option EventBase := do
  let b := b.abortLoop ev
  let b ← b.onQueues (·.removeIfQueued ev .timeout)
  let b ← b.onQueues (·.removeIfQueued ev .active)
  let r ← b.delInserted ev
  pure (r.1.notifyIf inThread r.2)

/-- `if (ev->ev_pri < base->event_running_priority) base->event_continue = 1`. -/
def continueFor (b : EventBase) (ev : EventPtr) : EventBase :=
  if ((b.events ev).evPri : ℤ) < b.eventRunningPriority then { b with eventContinue := true }
  else b

/-- `ev->ev_ncalls = ncalls` and `ev->ev_pncalls = NULL`, for an event with `EV_SIGNAL`. -/
def setNcalls (b : EventBase) (ev : EventPtr) (ncalls : ℕ) : EventBase :=
  if (b.events ev).evEvents.signal then
    b.modify ev fun e => { e with evNcalls := ncalls, evPncalls := none }
  else b

/-- `event_active_nolock`. -/
def eventActiveNolock (b : EventBase) (inThread : Bool) (ev : EventPtr) (res : What)
    (ncalls : ℕ) : Option EventBase :=
  if (b.events ev).evFlags.active then
    some (b.modify ev fun e => { e with evRes := e.evRes.or res })
  else do
    let b := b.modify ev fun e => { e with evRes := res }
    let b := (b.continueFor ev).setNcalls ev ncalls
    let b ← b.onQueues (·.eventQueueInsert ev .active)
    pure (b.notifyIf inThread true)

/-- The loop of `evmap_io_active`. -/
def activeAll (b : EventBase) (events : What) : List EventPtr → Option EventBase
  | [] => some b
  | ev :: evs =>
      if (b.events ev).evEvents.and events ≠ {} then do
        let b ← b.eventActiveNolock true ev ((b.events ev).evEvents.and events) 1
        b.activeAll events evs
      else b.activeAll events evs

/-- `evmap_io_active`. -/
def evmapIoActive (b : EventBase) (fd : Socket) (events : What) : Option EventBase := do
  let ctx ← b.ioMap.io fd
  b.activeAll events ctx.events

/-- `event_assign`, for an event of this event base. -/
def eventAssign (b : EventBase) (ev : EventPtr) (fd : Socket) (events : What)
    (callback : Callback) : EventBase × ℤ :=
  let b := b.modify ev fun e =>
    { e with
      evCallback := callback
      evFd := fd
      evEvents := events
      evRes := {}
      evFlags := {}
      evNcalls := 0
      evPncalls := none }
  if events.signal && (events.read || events.write) then (b, -1)
  else
    let b := b.modify ev fun e =>
      if events.signal then { e with evClosure := .signal }
      else if events.persist then
        { e with evIoTimeout := evutilTimerclear, evClosure := .persist }
      else { e with evClosure := .none }
    (b.modify ev fun e => { e with minHeapIdx := -1, evPri := b.nactivequeues / 2 }, 0)

/-- `event_priority_set`. -/
def eventPrioritySet (b : EventBase) (ev : EventPtr) (pri : ℤ) : EventBase × ℤ :=
  if (b.events ev).evFlags.active then (b, -1)
  else if pri < 0 ∨ pri ≥ b.nactivequeues then (b, -1)
  else (b.modify ev fun e => { e with evPri := pri.toNat }, 0)

/-- `event_base_loopbreak`. -/
def eventBaseLoopbreak (b : EventBase) (inThread : Bool) : EventBase :=
  ({ b with eventBreak := true } : EventBase).notifyIf inThread true

/-- `event_deferred_cb_schedule`, on the queue of the event base. -/
def eventDeferredCbSchedule (b : EventBase) (inThread : Bool) (cb : DeferredPtr) : EventBase :=
  if b.queued cb then b
  else
    ({ b with
      queued := Function.update b.queued cb true
      deferredCbList := b.deferredCbList ++ [cb]
      activeCount := b.activeCount + 1 } : EventBase).notifyIf inThread true

/-- Take a deferred callback from the queue. -/
def removeDeferred (b : EventBase) (cb : DeferredPtr) : EventBase :=
  { b with
    queued := Function.update b.queued cb false
    deferredCbList := b.deferredCbList.erase cb
    activeCount := b.activeCount - 1 }

/-- `event_deferred_cb_cancel`. -/
def eventDeferredCbCancel (b : EventBase) (cb : DeferredPtr) : EventBase :=
  if b.queued cb then b.removeDeferred cb else b

/-- When `event_persist_closure` has a persistent event run again. -/
def runAt (b : EventBase) (clock : Timeval) (ev : EventPtr) : Timeval :=
  let e := b.events ev
  let now := b.gettime clock
  let runAt := evutilTimeradd (if e.evRes.timeout then e.evTimeout else now) e.evIoTimeout
  if evutilTimercmp runAt now fun x y => decide (x < y) then evutilTimeradd now e.evIoTimeout
  else runAt

/-- `event_persist_closure`, as far as the lock is held. -/
def eventPersistClosure (b : EventBase) (granted : Granted) (clock : Timeval) (ev : EventPtr) :
    Option EventBase :=
  let e := b.events ev
  if e.evIoTimeout.tvSec ≠ 0 ∨ e.evIoTimeout.tvUsec ≠ 0 then
    (b.eventAddInternal granted clock true ev (some (b.runAt clock ev)) true).map Prod.fst
  else some b

/-! ### Timeouts -/

/-- `timeout_next`: how long to wait, `none` for without end. -/
def timeoutNext (b : EventBase) (clock : Timeval) : Option (Option Timeval) :=
  match minHeapTop b.timeheap with
  | none => some none
  | some ev =>
      let now := b.gettime clock
      if evutilTimercmp (b.events ev).evTimeout now fun x y => decide (x ≤ y) then
        some (some evutilTimerclear)
      else
        let tv := evutilTimersub (b.events ev).evTimeout now
        if tv.tvSec ≥ 0 ∧ tv.tvUsec ≥ 0 then some (some tv) else none

/-- The first `size` pointers of the heap, from `i` on, have `off` subtracted from their
timeouts. -/
def subtractFrom (s : MinHeap) (off : Timeval) : ℕ → ℕ → Events → Option Events
  | 0, _, m => some m
  | size + 1, i, m => do
      let ev ← s.slot i
      subtractFrom s off size (i + 1) (Function.update m ev
        { m ev with evTimeout := evutilTimersub (m ev).evTimeout off })

/-- `timeout_correct`, on a system without a monotonic clock. -/
def timeoutCorrect (b : EventBase) (clock : Timeval) : Option EventBase :=
  let tv := b.gettime clock
  if evutilTimercmp tv b.eventTv fun x y => decide (x ≥ y) then some { b with eventTv := tv }
  else
    let off := evutilTimersub b.eventTv tv
    (subtractFrom b.timeheap off b.timeheap.n 0 b.events).map fun m =>
      { b with events := m, eventTv := tv }

/-- The loop of `timeout_process`. Every round takes one of at most `fuel` events out of the
heap. -/
def timeoutLoop (now : Timeval) : ℕ → EventBase → Option EventBase
  | 0, b => some b
  | fuel + 1, b =>
      match minHeapTop b.timeheap with
      | none => some b
      | some ev =>
          if evutilTimercmp (b.events ev).evTimeout now fun x y => decide (x > y) then some b
          else do
            let b ← b.eventDelInternal true ev
            let b ← b.eventActiveNolock true ev { timeout := true } 1
            timeoutLoop now fuel b

/-- `timeout_process`. -/
def timeoutProcess (b : EventBase) (clock : Timeval) : Option EventBase :=
  if b.timeheap.n = 0 then some b
  else timeoutLoop (b.gettime clock) b.timeheap.n b

end EventBase

end EventLoop

end IocpEcho
