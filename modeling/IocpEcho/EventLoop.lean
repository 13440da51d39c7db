import IocpEcho.EventCalls

/-!
# The Event Loop

`event_base_loop` as one thread that takes step after step, among other threads that use the
same event base. The lock of the event base is free while the thread waits in `select`, and
while it runs a callback; there, and nowhere else, any thread may add, delete and activate
events, schedule deferred callbacks and break the loop, and so may the callback itself. The
clock may be set to any time at any moment.

A step of the thread goes from one point of `event_base_loop`, or of what it calls, to the
next. Which sockets `select` reports, and whether memory is granted, is left to the step. The
event that wakes the loop, `th_notify`, is there from the beginning and belongs to the event
base alone; since its socket is always watched, `select` is always called with sockets.
-/

namespace IocpEcho

namespace EventLoop

/-- The socket is in the set. -/
def WinFdSet.Has (set : WinFdSet) (fd : Socket) : Prop :=
  ∃ i < set.fdCount, set.fdArray i = fd

instance (set : WinFdSet) (fd : Socket) : Decidable (set.Has fd) :=
  inferInstanceAs (Decidable (∃ i < set.fdCount, set.fdArray i = fd))

/-- `EVLOOP_ONCE` and `EVLOOP_NONBLOCK`. -/
structure LoopFlags where
  once : Bool
  nonblock : Bool

/-- Where the thread is that runs the loop: nowhere; at the head of the loop of
`event_base_loop`; in `select`, for at most `tv`, with copies of the two sets; at the head of the
loop of `event_process_active`, for one of the queues; at the head of the loop of
`event_process_active_single_queue`; in a callback of that loop; in
`evthread_notify_drain_default` after the last `recv`; in `event_signal_closure` between two
calls; at the head of the loop of `event_process_deferred_callbacks`; and in a deferred
callback. `i` is the queue, `count` is the `count` of the function and `c` that of
`event_process_active`. -/
inductive Pc
  | out
  | top
  | dispatch (tv : Option Timeval) (readsetOut writesetOut : WinFdSet)
  | process (i : ℕ)
  | single (i count : ℕ)
  | callback (i count : ℕ) (ev : EventPtr) (closure : Closure) (callback : Callback)
  | drained (i count : ℕ) (ev : EventPtr) (closure : Closure)
  | signal (i count : ℕ) (ev : EventPtr)
  | deferred (c count : ℕ)
  | deferredCb (c count : ℕ) (cb : DeferredPtr)

/-- The lock of the event base is free, or held by no other thread than the caller. -/
def Pc.unlocked : Pc → Bool
  | out | dispatch .. | callback .. | drained .. | signal .. | deferredCb .. => true
  | top | process _ | single .. | deferred .. => false

/-- The thread of the loop may itself call the functions of the event base. -/
def Pc.inCallback : Pc → Bool
  | out | callback _ _ _ _ .user | deferredCb .. => true
  | _ => false

/-- The thread is in `select`, with sets that meet the condition. -/
def Pc.Selects (C : WinFdSet → WinFdSet → Prop) : Pc → Prop
  | dispatch _ r w => C r w
  | _ => False

instance (C : WinFdSet → WinFdSet → Prop) [∀ r w, Decidable (C r w)] : DecidablePred (Pc.Selects C)
  | .dispatch _ r w => inferInstanceAs (Decidable (C r w))
  | .out | .top | .process _ | .single .. | .callback .. | .drained .. | .signal ..
  | .deferred .. | .deferredCb .. => inferInstanceAs (Decidable False)

theorem Pc.Selects.exists {C : WinFdSet → WinFdSet → Prop} {pc : Pc} (h : pc.Selects C) :
    ∃ tv r w, pc = .dispatch tv r w ∧ C r w := by
  cases pc with
  | dispatch tv r w => exact ⟨tv, r, w, rfl, h⟩
  | _ => exact h.elim

/-- The event base, its clock, and the thread in `event_base_loop`; `retval` is what the last
call has returned. -/
structure Loop where
  base : EventBase
  clock : Timeval
  pc : Pc
  flags : LoopFlags
  retval : ℤ

inductive Label
  | call (inThread : Bool) (c : Call)
  | setClock (clock : Timeval)
  | loop (flags : LoopFlags)
  | select (ready : List (Socket × Bool))
  | selectFails
  | advance (granted : Granted)

namespace EventBase

/-- `EV_READ` for the sockets of the first set and `EV_WRITE` for those of the others. -/
def readyEvents (read : Bool) : What := if read then { read := true } else { write := true }

/-- The sockets that `select` has reported. -/
def activeSockets (b : EventBase) : List (Socket × Bool) → Option EventBase
  | [] => some b
  | (fd, read) :: ready => do
      let b ← b.evmapIoActive fd (readyEvents read)
      b.activeSockets ready

/-- The events that `select` has reported and those whose time has come. -/
def afterSelect (b : EventBase) (clock : Timeval) (ready : List (Socket × Bool)) :
    Option EventBase := do
  let b ← b.activeSockets ready
  (b.updateTimeCache clock).timeoutProcess clock

/-- How long `event_base_loop` lets `dispatch` wait: not at all if there is something to run. -/
def waitFor (b : EventBase) (clock : Timeval) (nonblock : Bool) : Option (Option Timeval) :=
  if b.nActiveCallbacks = 0 && !nonblock then b.timeoutNext clock
  else some (some evutilTimerclear)

/-- An active event leaves its queue; it is deleted unless it is persistent. -/
def takeActive (b : EventBase) (ev : EventPtr) : Option EventBase :=
  if (b.events ev).evEvents.persist then b.onQueues (·.eventQueueRemove ev .active)
  else b.eventDelInternal true ev

end EventBase

namespace Loop

/-- `done:`, the end of `event_base_loop`. -/
def leave (s : Loop) (b : EventBase) (retval : ℤ) : Loop :=
  { s with base := { b.clearTimeCache with runningLoop := false }, pc := .out, retval := retval }

/-- The beginning of `event_base_loop`. -/
def enter (s : Loop) (flags : LoopFlags) : Loop :=
  if s.base.runningLoop then { s with retval := -1 }
  else
    { s with
      base := { s.base.clearTimeCache with
        runningLoop := true
        eventGotterm := false
        eventBreak := false }
      pc := .top
      flags := flags }

/-- The loop of `event_base_loop` until it calls `dispatch`. -/
def atTop (s : Loop) : Option Loop :=
  let b : EventBase := { s.base with eventContinue := false }
  if b.eventGotterm || b.eventBreak then some (s.leave b 0)
  else do
    let b ← b.timeoutCorrect s.clock
    let tv ← b.waitFor s.clock s.flags.nonblock
    if !b.eventHaveevents && b.nActiveCallbacks = 0 then pure (s.leave b 1)
    else
      let b : EventBase := { b with eventTv := b.gettime s.clock }
      pure { s with
        base := b.clearTimeCache
        pc := .dispatch tv b.ioMap.evbase.readsetIn b.ioMap.evbase.writesetIn }

/-- `event_base_loop` from the end of `select` to `event_process_active`. -/
def atSelect (s : Loop) (ready : List (Socket × Bool)) : Option Loop := do
  let b ← s.base.afterSelect s.clock ready
  if b.nActiveCallbacks ≠ 0 then pure { s with base := b, pc := .process 0 }
  else if s.flags.nonblock then pure (s.leave b 0)
  else pure { s with base := b, pc := .top }

/-- `event_base_loop` after `event_process_active` has returned `n`. -/
def afterProcess (s : Loop) (b : EventBase) (n : ℤ) : Loop :=
  let b : EventBase := { b with eventRunningPriority := -1 }
  if s.flags.once && b.nActiveCallbacks = 0 && n ≠ 0 then s.leave b 0
  else { s with base := b, pc := .top }

/-- `event_process_active` after `event_process_active_single_queue` has returned `count`. -/
def afterSingle (s : Loop) (b : EventBase) (i count : ℕ) : Loop :=
  if count > 0 then { s with base := b, pc := .deferred count 0 }
  else { s with base := b, pc := .process (i + 1) }

/-- The loop of `event_process_active`. -/
def atProcess (s : Loop) (i : ℕ) : Loop :=
  if i < s.base.nactivequeues then
    if (s.base.activequeues i).isEmpty then { s with pc := .process (i + 1) }
    else { s with base := { s.base with eventRunningPriority := i }, pc := .single i 0 }
  else { s with pc := .deferred 0 0 }

/-- `event_signal_closure` before its loop. -/
def startSignal (b : EventBase) (ev : EventPtr) : EventBase :=
  let call := b.signalCall + 1
  let b : EventBase := { b with
    signalRunning := true
    signalCall := call
    signalNcalls := (b.events ev).evNcalls }
  if (b.events ev).evNcalls ≠ 0 then b.modify ev fun e => { e with evPncalls := some call } else b

/-- The loop of `event_process_active_single_queue` until it runs a callback. -/
def atSingle (s : Loop) (granted : Granted) (i count : ℕ) : Option Loop :=
  match s.base.activequeues i with
  | [] => some (s.afterSingle s.base i count)
  | ev :: _ => do
      let b ← s.base.takeActive ev
      let count := if (b.events ev).evFlags.internal then count else count + 1
      let b : EventBase := { b with currentEvent := some ev }
      let callback := (b.events ev).evCallback
      match (b.events ev).evClosure with
      | .signal => pure { s with base := startSignal b ev, pc := .signal i count ev }
      | .persist => do
          let b ← b.eventPersistClosure granted s.clock ev
          pure { s with base := b, pc := .callback i count ev .persist callback }
      | .none => pure { s with base := b, pc := .callback i count ev .none callback }

/-- The loop of `event_process_active_single_queue` after the callback of an event. -/
def afterCallback (s : Loop) (b : EventBase) (i count : ℕ) : Loop :=
  let b : EventBase := { b with currentEvent := none }
  if b.eventBreak then s.afterProcess b (-1)
  else if b.eventContinue then s.afterSingle b i count
  else { s with base := b, pc := .single i count }

/-- The loop of `event_signal_closure` until it calls the callback. -/
def atSignal (s : Loop) (i count : ℕ) (ev : EventPtr) : Loop :=
  if s.base.signalNcalls = 0 then s.afterCallback { s.base with signalRunning := false } i count
  else
    let ncalls := s.base.signalNcalls - 1
    let b : EventBase := ({ s.base with signalNcalls := ncalls } : EventBase).modify ev fun e =>
      { e with evNcalls := ncalls, evPncalls := if ncalls = 0 then none else e.evPncalls }
    { s with base := b, pc := .callback i count ev .signal (b.events ev).evCallback }

/-- After a callback has returned: the rest of the closure. -/
def afterClosure (s : Loop) (b : EventBase) (i count : ℕ) (ev : EventPtr) (closure : Closure) :
    Loop :=
  match closure with
  | .signal =>
      -- returning before the loop is over is the same as having no call left
      if b.eventBreak then
        let b := if b.signalNcalls ≠ 0 then b.modify ev fun e => { e with evPncalls := none } else b
        { s with base := { b with signalNcalls := 0 }, pc := .signal i count ev }
      else { s with base := b, pc := .signal i count ev }
  | .persist | .none => s.afterCallback b i count

/-- A callback returns; of those of the event base itself, all that they do. -/
def atCallback (s : Loop) (i count : ℕ) (ev : EventPtr) (closure : Closure)
    (callback : Callback) : Loop :=
  match callback with
  | .user => s.afterClosure s.base i count ev closure
  | .eventLoopexit => s.afterClosure { s.base with eventGotterm := true } i count ev closure
  | .notifyDrain =>
      { s with base := { s.base with thNotifyBytes := 0 }, pc := .drained i count ev closure }

/-- `evthread_notify_drain_default` after its loop. -/
def atDrained (s : Loop) (i count : ℕ) (ev : EventPtr) (closure : Closure) : Loop :=
  s.afterClosure { s.base with isNotifyPending := false } i count ev closure

/-- The loop of `event_process_deferred_callbacks` until it runs a callback. -/
def atDeferred (s : Loop) (c count : ℕ) : Loop :=
  match s.base.deferredCbList with
  | [] => s.afterProcess s.base c
  | cb :: _ => { s with base := s.base.removeDeferred cb, pc := .deferredCb c count cb }

/-- A deferred callback returns. At most `MAX_DEFERRED` of them run in a row. -/
def atDeferredCb (s : Loop) (c count : ℕ) : Loop :=
  if s.base.eventBreak then s.afterProcess s.base c
  else if count + 1 = 16 then s.afterProcess s.base c
  else { s with pc := .deferred c (count + 1) }

/-- The next step of the thread of the loop, where it does not wait for a socket. -/
def advance (s : Loop) (granted : Granted) : Option Loop :=
  match s.pc with
  | .out | .dispatch .. => some s
  | .top => s.atTop
  | .process i => some (s.atProcess i)
  | .single i count => s.atSingle granted i count
  | .callback i count ev closure callback => some (s.atCallback i count ev closure callback)
  | .drained i count ev closure => some (s.atDrained i count ev closure)
  | .signal i count ev => some (s.atSignal i count ev)
  | .deferred c count => some (s.atDeferred c count)
  | .deferredCb c count _ => some (s.atDeferredCb c count)

/-- The state after a step, if the source does not stop the program. -/
def step (s : Loop) : Label → Option Loop
  | .call inThread c => (s.base.call s.clock inThread c).map fun b => { s with base := b }
  | .setClock clock => some { s with clock := clock }
  | .loop flags => some (s.enter flags)
  | .select ready => s.atSelect ready
  | .selectFails => some (s.leave s.base (-1))
  | .advance granted => s.advance granted

/-- What can happen: a call by another thread while the lock is free, or by a callback; `select`
reports sockets of the sets it has been given. -/
def Enabled (s : Loop) : Label → Prop
  | .call inThread c =>
      (if inThread then s.pc.inCallback else s.pc.unlocked) = true ∧ c.Allowed s.base
  | .setClock clock => clock.Normal
  | .loop _ => s.pc.unlocked = true
  | .select ready => s.pc.Selects fun r w => ∀ x ∈ ready, (if x.2 then r else w).Has x.1
  | .selectFails => s.pc.Selects fun _ _ => True
  | .advance _ => True

instance (s : Loop) : DecidablePred s.Enabled
  | .call inThread c => inferInstanceAs
      (Decidable ((if inThread then s.pc.inCallback else s.pc.unlocked) = true ∧ c.Allowed s.base))
  | .setClock clock => inferInstanceAs (Decidable clock.Normal)
  | .loop _ => inferInstanceAs (Decidable (s.pc.unlocked = true))
  | .select ready => inferInstanceAs
      (Decidable (s.pc.Selects fun r w => ∀ x ∈ ready, (if x.2 then r else w).Has x.1))
  | .selectFails => inferInstanceAs (Decidable (s.pc.Selects fun _ _ => True))
  | .advance _ => inferInstanceAs (Decidable True)

end Loop

end EventLoop

end IocpEcho
