import IocpEcho.Isolation
import IocpEcho.Steps

/-!
# Uninterrupted Callbacks are atomic

`Isolation` takes the callbacks of the server as atomic steps. This module connects that view
to the server of `Callbacks`, statement by statement: a callback that one thread runs without
being interrupted, and in which every overlapped operation can be launched, does to the
registry, to the allocated bufferevents and to their outputs exactly what the atomic callback
does. Between callbacks every lock is free and every bufferevent that has not been freed has
been read empty (`AtRest`).

## Main results

* `run_of_callback`, `reach_of_invocations`: uninterrupted callbacks are runs of the server.
* `callback_refines`: an uninterrupted callback is an atomic one, or changes nothing that the
  atomic view shows.
* `refines_of_callbacks`: whole sequences of uninterrupted callbacks are runs of atomic ones,
  and what they append to a connection is what its history says.
-/

namespace IocpEcho

open Interleaving

/-! ### Uninterrupted callbacks -/

/-- Thread `t` executes its frames to the end, in at most `n` statements. -/
def finish (t : Tid) (o : Outcome) : ℕ → Memory → List Frame → Option Memory
  | _, m, [] => some m
  | 0, _, _ :: _ => none
  | n + 1, m, f :: post => (exec t o f m).bind fun r => finish t o n r.1 (r.2 ++ post)

/-- An event and everything it makes an idle thread execute; no callback of this server needs
more than 32 statements. -/
def callback (t : Tid) (o : Outcome) (e : Event) (m : Memory) : Option Memory :=
  (start t e m).bind fun r => finish t o 32 r.1 r.2

/-- Executing frames to the end is a run of the server. -/
theorem run_of_finish {t : Tid} {o : Outcome} {n : ℕ} {m m' : Memory} {fs : List Frame}
    {S : Tid → List Frame} (h : finish t o n m fs = some m') :
    ∃ ls, run server.step ⟨m, Function.update S t fs⟩ ls
      = some ⟨m', Function.update S t []⟩ := by
  induction n generalizing m fs with
  | zero =>
      cases fs with
      | nil =>
          obtain rfl := Option.some.inj h
          exact ⟨[], rfl⟩
      | cons f post => simp [finish] at h
  | succ n ih =>
      cases fs with
      | nil =>
          obtain rfl := Option.some.inj h
          exact ⟨[], rfl⟩
      | cons f post =>
          obtain ⟨r, hr, hfinish⟩ := Option.bind_eq_some_iff.mp h
          obtain ⟨ls, hls⟩ := ih hfinish
          have hstep : server.step ⟨m, Function.update S t (f :: post)⟩ (.exec t o)
              = some ⟨r.1, Function.update S t (r.2 ++ post)⟩ := by
            have hexec : server.exec t o f m = some r := hr
            simp [Program.step, Config.set, hexec]
          exact ⟨.exec t o :: ls, by rw [run, hstep]; exact hls⟩

/-- **An uninterrupted callback is a run of the server** between two states in which every
thread is idle. -/
theorem run_of_callback {t : Tid} {o : Outcome} {e : Event} {m m' : Memory}
    (h : callback t o e m = some m') :
    ∃ ls, run server.step ⟨m, fun _ => []⟩ ls = some ⟨m', fun _ => []⟩ := by
  obtain ⟨r, hr, hfinish⟩ := Option.bind_eq_some_iff.mp h
  have hidle : Function.update (fun _ : Tid => ([] : List Frame)) t [] = fun _ => [] := by
    funext u
    by_cases hu : u = t
    · simp [hu]
    · simp [hu]
  obtain ⟨ls, hls⟩ := run_of_finish (S := fun _ => []) hfinish
  rw [hidle] at hls
  have hstep : server.step ⟨m, fun _ => []⟩ (.start t e)
      = some ⟨r.1, Function.update (fun _ => []) t r.2⟩ := by
    have hstart : server.start t e m = some r := hr
    simp [Program.step, Config.set, hstart]
  exact ⟨.start t e :: ls, by rw [run, hstep]; exact hls⟩

/-! ### Bufferevents at rest -/

/-- A bufferevent between callbacks: its lock is free, its references are those of the
creation and of the operations in progress, and unless it has been freed it is ready for the
next completion. -/
structure AtRest (b : Bufferevent) : Prop where
  lock : b.lock = none
  count : b.refcnt = b.outside
  ready : b.freed = false → b.callbacks = true ∧ b.ok = true ∧ b.enabledRead = true ∧
    b.enabledWrite = true ∧ b.input = []
  closed : b.freed = true → b.ok = false

/-- A bufferevent after the event callback and the end of the completion it ran in: both
references are gone, and with the last one the bufferevent. -/
def Bufferevent.afterEventcb (b : Bufferevent) : Option Bufferevent :=
  if b.refcnt - 2 = 0 then none
  else some { b with
    lock := none, callbacks := false, ok := false, freed := true, refcnt := b.refcnt - 2 }

/-- What is left of a bufferevent that has been closed: nothing, or one that waits for the
completions of its operations in progress. -/
def Closed (b : Bufferevent) (b' : Option Bufferevent) : Prop :=
  ∀ b₁ ∈ b', b₁.conn = b.conn ∧ b₁.freed = true ∧ b₁.appended = b.appended ∧ AtRest b₁

theorem Closed.bind_eq_none {b : Bufferevent} {b' : Option Bufferevent} (h : Closed b b') :
    (b'.bind fun b => if b.freed then none else some b.conn) = none := by
  cases b' with
  | none => rfl
  | some b₁ => rw [Option.bind_some, if_pos (h b₁ rfl).2.1]

/-- What `iocp_conn_eventcb` prints. -/
def What.print : What → Print
  | .eof => .closed
  | .error => .gotError

theorem message_ne_nil : message ≠ [] := by decide

/-! ### Completions that report EOF or an error -/

/-- A completion enters the lock of a bufferevent at rest and owns one reference. -/
theorem Completion.of_atRest {e : Event} {t : Tid} {p : Addr} {b b₁ : Bufferevent}
    {pre : List Frame} (hcomp : Completion e t p b b₁ pre) (hrest : AtRest b) :
    b₁.lock = some (t, 1) ∧ b₁.refcnt = b₁.outside + 1 := by
  constructor
  · rw [hcomp.lock, hrest.lock]
    rfl
  · rw [hcomp.refcnt, hrest.count, hcomp.outside]

/-- An event that is a completion for `p`. -/
def Event.Completes (p : Addr) : Event → Prop
  | .accept _ => False
  | .readComplete q _ _ | .writeComplete q _ _ => q = p

/-- A completion comes for an existing bufferevent. -/
theorem heap_of_start {t : Tid} {e : Event} {m : Memory} {p : Addr} {r : Memory × List Frame}
    (he : e.Completes p) (h : start t e m = some r) : ∃ b, m.heap p = some b := by
  refine Option.ne_none_iff_exists'.mp fun hp => ?_
  cases e with
  | accept sa => exact he
  | readComplete q data ok =>
      obtain rfl : q = p := he
      simp [start, hp] at h
  | writeComplete q nbytes ok =>
      obtain rfl : q = p := he
      simp [start, hp] at h

/-- The frames of a completion that fails on a working bufferevent. -/
theorem readComplete_fails {t : Tid} {p : Addr} {data : List Byte} {ok : Bool}
    {b : Bufferevent} (hok : b.ok = true) (hfails : ¬ (ok = true ∧ data ≠ [])) :
    (readComplete t p data ok b).2
      = [.runEventcb p (if ok then .eof else .error), .decrefAndUnlock p] := by
  have hbad : (ok && decide (data ≠ [])) = false := by simpa using hfails
  simp only [readComplete, hok, hbad, if_true, Bool.false_eq_true, if_false]

theorem writeComplete_fails {t : Tid} {p : Addr} {nbytes : ℕ} {ok : Bool} {b : Bufferevent}
    (hok : b.ok = true) (hfails : ¬ (ok = true ∧ nbytes ≠ 0)) :
    (writeComplete t p nbytes ok b).2
      = [.runEventcb p (if ok then .eof else .error), .decrefAndUnlock p] := by
  have hbad : (ok && decide (nbytes ≠ 0)) = false := by simpa using hfails
  simp only [writeComplete, hok, hbad, if_true, Bool.false_eq_true, if_false]

/-- A completion that fails on a working bufferevent runs the event callback. -/
theorem start_fails {t : Tid} {e : Event} {m : Memory} {p : Addr} {b : Bufferevent}
    {r : Memory × List Frame} (hp : m.heap p = some b) (hok : b.ok = true) (he : e.Fails p)
    (h : start t e m = some r) :
    ∃ b₁ w, r = (m.setBev p (some b₁), [.runEventcb p w, .decrefAndUnlock p]) ∧
      Completion e t p b b₁ [.runEventcb p w] := by
  cases e with
  | accept sa => exact he.elim
  | readComplete q data ok =>
      obtain ⟨rfl, hfails⟩ := he
      obtain ⟨-, hrip, -, rfl⟩ := start_readComplete hp h
      obtain ⟨b₁, pre, hres, hcomp⟩ := completion_read t q data ok hrip
      have hpre : pre = [.runEventcb q (if ok then .eof else .error)] :=
        List.append_cancel_right ((congrArg Prod.snd hres).symm.trans
          (readComplete_fails hok hfails))
      rw [hres, hpre]
      exact ⟨b₁, _, rfl, hpre ▸ hcomp⟩
  | writeComplete q nbytes ok =>
      obtain ⟨rfl, hfails⟩ := he
      obtain ⟨-, hwip, -, rfl⟩ := start_writeComplete hp h
      obtain ⟨b₁, pre, hres, hcomp⟩ := completion_write t q nbytes ok hwip
      have hpre : pre = [.runEventcb q (if ok then .eof else .error)] :=
        List.append_cancel_right ((congrArg Prod.snd hres).symm.trans
          (writeComplete_fails hok hfails))
      rw [hres, hpre]
      exact ⟨b₁, _, rfl, hpre ▸ hcomp⟩

/-- A completion for a bufferevent that no longer works only drops its reference. -/
theorem start_stale {t : Tid} {e : Event} {m : Memory} {p : Addr} {b : Bufferevent}
    {r : Memory × List Frame} (hp : m.heap p = some b) (hok : b.ok = false)
    (he : e.Completes p) (h : start t e m = some r) :
    ∃ b₁, r = (m.setBev p (some b₁), [.decrefAndUnlock p]) ∧ b₁.ok = false ∧
      Completion e t p b b₁ [] := by
  cases e with
  | accept sa => exact he.elim
  | readComplete q data ok =>
      obtain rfl : q = p := he
      obtain ⟨-, hrip, -, rfl⟩ := start_readComplete hp h
      obtain ⟨b₁, pre, hres, hcomp⟩ := completion_read t q data ok hrip
      have hstale := hres
      simp only [readComplete, hok, Bool.false_eq_true, if_false, Prod.mk.injEq] at hstale
      obtain ⟨rfl, hpre⟩ := hstale
      have hpre : pre = [] := List.append_cancel_right hpre.symm
      rw [hres, hpre]
      exact ⟨_, rfl, rfl, hpre ▸ hcomp⟩
  | writeComplete q nbytes ok =>
      obtain rfl : q = p := he
      obtain ⟨-, hwip, -, rfl⟩ := start_writeComplete hp h
      obtain ⟨b₁, pre, hres, hcomp⟩ := completion_write t q nbytes ok hwip
      have hstale := hres
      simp only [writeComplete, hok, Bool.false_eq_true, if_false, Prod.mk.injEq] at hstale
      obtain ⟨rfl, hpre⟩ := hstale
      have hpre : pre = [] := List.append_cancel_right hpre.symm
      rw [hres, hpre]
      exact ⟨_, rfl, rfl, hpre ▸ hcomp⟩

/-! ### Symbolic execution -/

section Symbolic

variable {t : Tid} {o : Outcome} {m : Memory} {p : Addr} {b : Bufferevent}

-- the statements and the libevent calls under them, executed by `simp`
attribute [local simp] callback start finish exec execListener execReadcb execEventcb
  readComplete writeComplete Memory.onBev Memory.readBev Memory.print Memory.setBev
  available lockBy unlock buffereventWrite bevAsyncConsiderReading bevAsyncConsiderWriting
  Bufferevent.new Bufferevent.increfAndLock Bufferevent.setcb Bufferevent.append
  Bufferevent.wantsRead Bufferevent.wantsWrite Bufferevent.launchRead
  Bufferevent.launchWrite Bufferevent.decref Bufferevent.decrefAndUnlock Bufferevent.free
  Option.filter_some

/-- The accept callback, run without interruption. -/
theorem callback_accept (sa : SockaddrIn) (hl : o.launched = true) (ho : o.addr = some p)
    (hp : m.heap p = none) :
    ∃ b, callback t o (.accept sa) m = some { m with
        heap := Function.update m.heap p (some b)
        mapClient := m.mapClient.insert p sa
        nextConn := m.nextConn + 1
        stdout := m.stdout ++ [.connectFrom sa,
          .clientCount (m.mapClient.insert p sa).keys.card] } ∧
      b.conn = m.nextConn ∧ b.freed = false ∧ b.appended = [message] ∧ AtRest b := by
  refine ⟨{ Bufferevent.new m.nextConn with
    refcnt := 3, callbacks := true, enabledRead := true, readInProgress := maxToReadEver,
    writeInProgress := min message.length maxToReadEver, output := message,
    appended := [message] }, ?_, rfl, rfl, rfl, rfl, ?_, fun _ => ⟨rfl, rfl, rfl, rfl, rfl⟩, ?_⟩
  · simp [hp, ho, hl, message_ne_nil]
  · simp [Bufferevent.outside, message_ne_nil, maxToReadEver]
  · simp

/-- The read callback, run without interruption on a registered bufferevent. -/
theorem callback_read {data : List Byte} (hl : o.launched = true) (hp : m.heap p = some b)
    (hrest : AtRest b) (hfreed : b.freed = false) (hmem : p ∈ m.mapClient)
    (hrip : b.readInProgress ≠ 0) (hlen : data.length ≤ b.readInProgress) (hdata : data ≠ [])
    (hfit : data.length ≤ maxToReadEver) :
    ∃ b', callback t o (.readComplete p data true) m = some { m with
        heap := Function.update m.heap p (some b') } ∧
      b'.conn = b.conn ∧ b'.freed = false ∧
      b'.appended = b.appended ++ [readcbReply (m.mapClient.lookup p) o.now o.past data] ∧
      AtRest b' := by
  obtain ⟨hcb, hok, her, hew, hin⟩ := hrest.ready hfreed
  have hlock := hrest.lock
  have hcount := hrest.count
  have hmax : maxToReadEver ≠ 0 := by decide
  have hdrain : (buffereventRead data maxToReadEver).2 = [] := by
    rw [buffereventRead, List.drop_of_length_le hfit]
  have hpos : b.refcnt ≠ 0 := by
    rw [hcount, Bufferevent.outside, hfreed]
    simp
  -- the reply is written at once when no write is in progress
  by_cases hwip : b.writeInProgress = 0
  · refine ⟨{ b with
      refcnt := b.refcnt + 1, readInProgress := maxToReadEver,
      writeInProgress := min (b.output ++
        readcbReply (m.mapClient.lookup p) o.now o.past data).length maxToReadEver,
      output := b.output ++ readcbReply (m.mapClient.lookup p) o.now o.past data,
      appended := b.appended ++ [readcbReply (m.mapClient.lookup p) o.now o.past data] },
      ?_, rfl, hfreed, rfl, hlock, ?_, fun _ => ⟨hcb, hok, her, hew, hin⟩, hrest.closed⟩
    · simp [hp, hl, hlock, hrip, hlen, hok, hdata, hin, hcb, her, hew, hmem, hwip, hpos, hdrain,
        hmax, readcbReply, reply]
    · simp [Bufferevent.outside, hcount, hfreed, hrip, hwip, hmax, readcbReply, reply]
  · refine ⟨{ b with
      readInProgress := maxToReadEver,
      output := b.output ++ readcbReply (m.mapClient.lookup p) o.now o.past data,
      appended := b.appended ++ [readcbReply (m.mapClient.lookup p) o.now o.past data] },
      ?_, rfl, hfreed, rfl, hlock, ?_, fun _ => ⟨hcb, hok, her, hew, hin⟩, hrest.closed⟩
    · simp [hp, hl, hlock, hrip, hlen, hok, hdata, hin, hcb, her, hew, hmem, hwip, hpos, hdrain,
        hmax, readcbReply, reply]
    · simp [Bufferevent.outside, hcount, hfreed, hrip, hwip, hmax]

/-- The event callback inside a completion: the reference of the creation and that of the
completion are dropped. -/
theorem finish_fails (w : What) (hlock : b.lock = some (t, 1)) (hcb : b.callbacks = true)
    (href : 2 ≤ b.refcnt) :
    finish t o 32 (m.setBev p (some b)) [.runEventcb p w, .decrefAndUnlock p] = some { m with
      heap := Function.update m.heap p b.afterEventcb
      mapClient := m.mapClient.erase p
      stdout := m.stdout ++ [w.print] } := by
  have h₁ : b.refcnt - 1 ≠ 0 := by omega
  have h₂ : b.refcnt - 1 - 1 = b.refcnt - 2 := by omega
  cases w with
  | eof => simp [hlock, hcb, h₁, h₂, What.print, Bufferevent.afterEventcb]
  | error => simp [hlock, hcb, h₁, h₂, What.print, Bufferevent.afterEventcb]

/-- A completion that reports EOF or an error, run without interruption on a bufferevent that
has not been freed: it is freed, and destroyed unless another operation is in progress. -/
theorem callback_fails {e : Event} {r : Memory × List Frame} (hp : m.heap p = some b)
    (hrest : AtRest b) (hfreed : b.freed = false) (he : e.Fails p)
    (hstart : start t e m = some r) :
    ∃ (b' : Option Bufferevent) (w : What), callback t o e m = some { m with
        heap := Function.update m.heap p b'
        mapClient := m.mapClient.erase p
        stdout := m.stdout ++ [w.print] } ∧
      Closed b b' := by
  obtain ⟨hcb, hok, -, -, -⟩ := hrest.ready hfreed
  obtain ⟨b₁, w, rfl, hcomp⟩ := start_fails hp hok he hstart
  have hstatus := hcomp.status
  simp only [Bufferevent.status, Status.mk.injEq, hfreed, hcb] at hstatus
  obtain ⟨hconn, hfreed₁, hcb₁⟩ := hstatus
  obtain ⟨hlock, href⟩ := hcomp.of_atRest hrest
  have hout : b₁.outside = 1 + ({ b₁ with freed := true } : Bufferevent).outside := by
    simp only [Bufferevent.outside, hfreed₁]
    simp only [Bool.false_eq_true, if_false, if_true]
    omega
  refine ⟨b₁.afterEventcb, w, ?_, ?_⟩
  · rw [callback, hstart, Option.bind_some]
    exact finish_fails w hlock hcb₁ (by omega)
  · intro b₂ hb₂
    rw [Bufferevent.afterEventcb] at hb₂
    split at hb₂
    · simp at hb₂
    · obtain rfl := Option.some.inj hb₂
      refine ⟨hconn, rfl, hcomp.appended, rfl, ?_, by simp, fun _ => rfl⟩
      change b₁.refcnt - 2 = ({ b₁ with freed := true } : Bufferevent).outside
      omega

/-- A completed write, run without interruption: the next part of the output is written. -/
theorem callback_written {nbytes : ℕ} (hl : o.launched = true) (hp : m.heap p = some b)
    (hrest : AtRest b) (hfreed : b.freed = false) (hwip : b.writeInProgress ≠ 0)
    (hle : nbytes ≤ b.writeInProgress) (hn : nbytes ≠ 0) :
    ∃ b', callback t o (.writeComplete p nbytes true) m = some { m with
        heap := Function.update m.heap p (some b') } ∧
      b'.conn = b.conn ∧ b'.freed = false ∧ b'.appended = b.appended ∧ AtRest b' := by
  obtain ⟨hcb, hok, her, hew, hin⟩ := hrest.ready hfreed
  have hlock := hrest.lock
  have hcount := hrest.count
  rw [Bufferevent.outside, hfreed, if_neg hwip] at hcount
  have hpos : b.refcnt - 1 ≠ 0 := by
    simp only [Bool.false_eq_true, if_false] at hcount
    omega
  by_cases hout : b.output.drop nbytes = []
  · refine ⟨{ b with
      refcnt := b.refcnt - 1, writeInProgress := 0, output := [] },
      ?_, rfl, hfreed, rfl, hlock, ?_, fun _ => ⟨hcb, hok, her, hew, hin⟩, hrest.closed⟩
    · simp [hp, hlock, hwip, hle, hok, hn, hout, hcb, hpos]
    · simp [Bufferevent.outside, hcount, hfreed]
  · have hmax : maxToReadEver ≠ 0 := by decide
    have hlen : b.output.length - nbytes ≠ 0 := by
      rw [← List.length_drop]
      exact fun hz => hout (List.length_eq_zero_iff.mp hz)
    have hne : b.refcnt ≠ 0 := by omega
    refine ⟨{ b with
      writeInProgress := min (b.output.drop nbytes).length maxToReadEver,
      output := b.output.drop nbytes },
      ?_, rfl, hfreed, rfl, hlock, ?_, fun _ => ⟨hcb, hok, her, hew, hin⟩, hrest.closed⟩
    · simp [hp, hl, hlock, hwip, hle, hok, hn, hout, hew, hne]
    · simp [Bufferevent.outside, hcount, hfreed, hlen, hmax]

/-- A completion on a bufferevent that has been freed, run without interruption: only the
reference kept for it is dropped. -/
theorem callback_stale {e : Event} {r : Memory × List Frame} (hp : m.heap p = some b)
    (hrest : AtRest b) (hfreed : b.freed = true) (he : e.Completes p)
    (hstart : start t e m = some r) :
    ∃ b', callback t o e m = some { m with heap := Function.update m.heap p b' } ∧
      Closed b b' := by
  obtain ⟨b₁, rfl, hok, hcomp⟩ := start_stale hp (hrest.closed hfreed) he hstart
  have hstatus := hcomp.status
  simp only [Bufferevent.status, Status.mk.injEq, hfreed] at hstatus
  obtain ⟨hconn, hfreed₁, -⟩ := hstatus
  obtain ⟨hlock, href⟩ := hcomp.of_atRest hrest
  refine ⟨b₁.decrefAndUnlock, ?_, ?_⟩
  · rw [callback, hstart, Option.bind_some]
    simp [hlock]
  · intro b₂ hb₂
    rw [Bufferevent.decrefAndUnlock] at hb₂
    split at hb₂
    · simp at hb₂
    · obtain rfl := Option.some.inj hb₂
      refine ⟨hconn, hfreed₁, hcomp.appended, ?_, ?_, by simp [hfreed₁], fun _ => hok⟩
      · simp [hlock]
      · change b₁.refcnt - 1 = b₁.outside
        omega

end Symbolic

/-! ### The simulation -/

/-- Which connection's bufferevent is allocated at which address. -/
def Memory.allocated (m : Memory) (p : Addr) : Option ℕ :=
  (m.heap p).bind fun b => if b.freed then none else some b.conn

/-- A state between callbacks and its atomic view: the same registry, the same allocated
bufferevents, and outputs that are the recorded writes. A bufferevent that has been freed but
not destroyed is no longer allocated; no connection number occurs twice. -/
structure Refines (m : Memory) (σ : Service) : Prop where
  allocated : σ.allocated = m.allocated
  mapClient : σ.mapClient = m.mapClient
  nextConn : σ.nextConn = m.nextConn
  rest : ∀ p b, m.heap p = some b → AtRest b
  output : ∀ p b, m.heap p = some b → b.appended = σ.writesTo b.conn
  known : ∀ p b, m.heap p = some b → b.conn < m.nextConn
  unique : ∀ p q b b', m.heap p = some b → m.heap q = some b' → b.conn = b'.conn → p = q

theorem Memory.allocated_update {m m' : Memory} {p : Addr} {b : Option Bufferevent}
    (h : m'.heap = Function.update m.heap p b) :
    m'.allocated = Function.update m.allocated p
      (b.bind fun b => if b.freed then none else some b.conn) := by
  funext q
  by_cases hq : q = p
  · subst hq
    simp [Memory.allocated, h]
  · simp [Memory.allocated, h, hq]

section Refines

variable {m m' : Memory} {σ σ' : Service} {p : Addr} {b : Bufferevent}

/-- A callback that touches one bufferevent only and writes to its connection only. -/
theorem Refines.touch {b' : Option Bufferevent} (h : Refines m σ) (hp : m.heap p = some b)
    (hheap : m'.heap = Function.update m.heap p b')
    (hb' : ∀ b₁ ∈ b', b₁.conn = b.conn ∧ b₁.appended = σ'.writesTo b.conn ∧ AtRest b₁)
    (hothers : ∀ c, c ≠ b.conn → σ'.writesTo c = σ.writesTo c)
    (halloc : σ'.allocated = m'.allocated) (hmap : σ'.mapClient = m'.mapClient)
    (hnext : m'.nextConn = m.nextConn) (hnext' : σ'.nextConn = σ.nextConn) :
    Refines m' σ' := by
  have hconn : ∀ q b₁, m'.heap q = some b₁ → ∃ b₂, m.heap q = some b₂ ∧ b₂.conn = b₁.conn := by
    intro q b₁ hq
    rcases heap_update_cases hheap hq with ⟨rfl, hb₁⟩ | ⟨-, hq⟩
    · exact ⟨b, hp, (hb' b₁ hb₁).1.symm⟩
    · exact ⟨b₁, hq, rfl⟩
  refine ⟨halloc, hmap, ?_, fun q b₁ hq => ?_, fun q b₁ hq => ?_, fun q b₁ hq => ?_,
    fun q q' b₁ b₂ hq hq' hc => ?_⟩
  · rw [hnext', hnext, h.nextConn]
  · rcases heap_update_cases hheap hq with ⟨-, hb₁⟩ | ⟨-, hq⟩
    · exact (hb' b₁ hb₁).2.2
    · exact h.rest q b₁ hq
  · rcases heap_update_cases hheap hq with ⟨-, hb₁⟩ | ⟨hqp, hq⟩
    · rw [(hb' b₁ hb₁).2.1, (hb' b₁ hb₁).1]
    · rw [hothers _ fun hc => hqp (h.unique q p b₁ b hq hp hc)]
      exact h.output q b₁ hq
  · obtain ⟨b₂, hb₂, hc⟩ := hconn q b₁ hq
    rw [hnext, ← hc]
    exact h.known q b₂ hb₂
  · obtain ⟨b₃, hb₃, hc₃⟩ := hconn q b₁ hq
    obtain ⟨b₄, hb₄, hc₄⟩ := hconn q' b₂ hq'
    exact h.unique q q' b₃ b₄ hb₃ hb₄ (by rw [hc₃, hc₄, hc])

/-- The address of a bufferevent that has not been freed, in the atomic view. -/
theorem Refines.allocated_of_heap (h : Refines m σ) (hp : m.heap p = some b)
    (hfreed : b.freed = false) : σ.allocated p = some b.conn := by
  rw [h.allocated, Memory.allocated, hp, Option.bind_some, hfreed]
  rfl

/-- The accept callback. -/
theorem Refines.listenerCb {sa : SockaddrIn} (h : Refines m σ) (hserved : Served σ)
    (hheap : m'.heap = Function.update m.heap p (some b))
    (hmap : m'.mapClient = m.mapClient.insert p sa) (hnext : m'.nextConn = m.nextConn + 1)
    (hconn : b.conn = m.nextConn) (hfreed : b.freed = false) (happ : b.appended = [message])
    (hrest : AtRest b) : Refines m' (σ.listenerCb p sa) := by
  have hcases : ∀ q b₁, m'.heap q = some b₁ →
      (q = p ∧ b₁ = b) ∨ (q ≠ p ∧ m.heap q = some b₁) := by
    intro q b₁ hq
    rcases heap_update_cases hheap hq with ⟨rfl, hnew⟩ | hother
    · exact Or.inl ⟨rfl, (Option.some.inj hnew).symm⟩
    · exact Or.inr hother
  have hwrites : ∀ c, (σ.listenerCb p sa).writesTo c
      = σ.writesTo c ++ if some σ.nextConn = some c then [message] else [] :=
    Service.writesTo_append (w := ⟨σ.nextConn, some σ.nextConn, message⟩) rfl
  -- nothing has been written yet for the number of the new connection
  have hnew : σ.writesTo σ.nextConn = [] := by
    rw [hserved.output, hserved.fresh _ (le_refl _)]
    rfl
  refine ⟨?_, ?_, ?_, fun q b₁ hq => ?_, fun q b₁ hq => ?_, fun q b₁ hq => ?_,
    fun q q' b₁ b₂ hq hq' hc => ?_⟩
  · rw [Memory.allocated_update hheap, Option.bind_some, hfreed, hconn, ← h.nextConn,
      ← h.allocated]
    rfl
  · rw [hmap, ← h.mapClient]
    rfl
  · rw [hnext, ← h.nextConn]
    rfl
  · rcases hcases q b₁ hq with ⟨-, rfl⟩ | ⟨-, hq⟩
    · exact hrest
    · exact h.rest q b₁ hq
  · rw [hwrites]
    rcases hcases q b₁ hq with ⟨-, rfl⟩ | ⟨-, hq⟩
    · rw [happ, hconn, ← h.nextConn, hnew, if_pos rfl]
      rfl
    · have hlt := h.known q b₁ hq
      rw [if_neg fun hs => by rw [h.nextConn] at hs; exact hlt.ne' (Option.some.inj hs),
        List.append_nil]
      exact h.output q b₁ hq
  · rw [hnext]
    rcases hcases q b₁ hq with ⟨-, rfl⟩ | ⟨-, hq⟩
    · omega
    · exact Nat.lt_succ_of_lt (h.known q b₁ hq)
  · rcases hcases q b₁ hq with ⟨rfl, rfl⟩ | ⟨-, hq⟩
    · rcases hcases q' b₂ hq' with ⟨rfl, -⟩ | ⟨-, hq'⟩
      · rfl
      · have := h.known q' b₂ hq'
        omega
    · rcases hcases q' b₂ hq' with ⟨rfl, rfl⟩ | ⟨-, hq'⟩
      · have := h.known q b₁ hq
        omega
      · exact h.unique q q' b₁ b₂ hq hq' hc

/-- The read callback. -/
theorem Refines.readcb {b' : Bufferevent} {chunk past : List Byte} {now : LocalTime}
    {stray : Addr} (h : Refines m σ) (hp : m.heap p = some b) (hfreed : b.freed = false)
    (hmem : p ∈ m.mapClient) (hheap : m'.heap = Function.update m.heap p (some b'))
    (hmap : m'.mapClient = m.mapClient) (hnext : m'.nextConn = m.nextConn)
    (hconn : b'.conn = b.conn) (hfreed' : b'.freed = false)
    (happ : b'.appended = b.appended ++ [readcbReply (m.mapClient.lookup p) now past chunk])
    (hrest : AtRest b') : Refines m' (σ.readcb b.conn p chunk now past stray) := by
  have hp' := h.allocated_of_heap hp hfreed
  have hw : (σ.readcb b.conn p chunk now past stray).writes = σ.writes ++
      [⟨b.conn, some b.conn, readcbReply (m.mapClient.lookup p) now past chunk⟩] := by
    simp only [Service.readcb, h.mapClient, if_pos hmem, Option.bind_some, Option.getD_some, hp']
  refine h.touch hp hheap (fun b₁ hb₁ => ?_) (fun c hc => ?_) ?_ ?_ hnext rfl
  · obtain rfl := Option.some.inj hb₁
    refine ⟨hconn, ?_, hrest⟩
    rw [Service.writesTo_append hw, happ, h.output p b hp, if_pos rfl]
  · rw [Service.writesTo_append hw, if_neg fun hs => hc (Option.some.inj hs).symm,
      List.append_nil]
  · rw [Memory.allocated_update hheap, Option.bind_some, hfreed', hconn, ← h.allocated]
    exact (Function.update_eq_self_iff.mpr hp'.symm).symm
  · rw [hmap, ← h.mapClient]
    rfl

/-- The event callback. -/
theorem Refines.eventcb {b' : Option Bufferevent} {w : What} (h : Refines m σ)
    (hp : m.heap p = some b) (hheap : m'.heap = Function.update m.heap p b')
    (hmap : m'.mapClient = m.mapClient.erase p) (hnext : m'.nextConn = m.nextConn)
    (hclosed : Closed b b') : Refines m' (σ.eventcb b.conn p w) := by
  refine h.touch hp hheap (fun b₁ hb₁ => ?_) (fun _ _ => rfl) ?_ ?_ hnext rfl
  · obtain ⟨hconn, -, happ, hrest⟩ := hclosed b₁ hb₁
    exact ⟨hconn, happ.trans (h.output p b hp), hrest⟩
  · rw [Memory.allocated_update hheap, hclosed.bind_eq_none, ← h.allocated]
    rfl
  · rw [hmap, ← h.mapClient]
    rfl

/-- A callback that finds its bufferevent closed. -/
theorem Refines.stale {b' : Option Bufferevent} (h : Refines m σ)
    (hp : m.heap p = some b) (hfreed : b.freed = true)
    (hheap : m'.heap = Function.update m.heap p b')
    (hmap : m'.mapClient = m.mapClient) (hnext : m'.nextConn = m.nextConn)
    (hclosed : Closed b b') : Refines m' σ := by
  refine h.touch hp hheap (fun b₁ hb₁ => ?_) (fun _ _ => rfl) ?_ ?_ hnext rfl
  · obtain ⟨hconn, -, happ, hrest⟩ := hclosed b₁ hb₁
    exact ⟨hconn, happ.trans (h.output p b hp), hrest⟩
  · have hnone : σ.allocated p = none := by
      rw [h.allocated, Memory.allocated, hp, Option.bind_some, if_pos hfreed]
    rw [Memory.allocated_update hheap, hclosed.bind_eq_none, ← h.allocated]
    exact (Function.update_eq_self_iff.mpr hnone.symm).symm
  · rw [hmap, h.mapClient]

/-- A completed write: the output that is left has been recorded already. -/
theorem Refines.written {b' : Bufferevent} (h : Refines m σ) (hp : m.heap p = some b)
    (hfreed : b.freed = false) (hheap : m'.heap = Function.update m.heap p (some b'))
    (hmap : m'.mapClient = m.mapClient) (hnext : m'.nextConn = m.nextConn)
    (hconn : b'.conn = b.conn) (hfreed' : b'.freed = false)
    (happ : b'.appended = b.appended) (hrest : AtRest b') : Refines m' σ := by
  refine h.touch hp hheap (fun b₁ hb₁ => ?_) (fun _ _ => rfl) ?_ ?_ hnext rfl
  · obtain rfl := Option.some.inj hb₁
    exact ⟨hconn, happ.trans (h.output p b hp), hrest⟩
  · rw [Memory.allocated_update hheap, Option.bind_some, hfreed', hconn, ← h.allocated]
    exact (Function.update_eq_self_iff.mpr (h.allocated_of_heap hp hfreed).symm).symm
  · rw [hmap, h.mapClient]

end Refines

/-! ### Sequences of uninterrupted callbacks -/

/-- One uninterrupted callback: the thread that runs it, what the program does not decide, and
the event. -/
structure Invocation where
  thread : Tid
  outcome : Outcome
  event : Event

/-- The server that runs one callback at a time. -/
def Memory.invoke (m : Memory) (x : Invocation) : Option Memory :=
  callback x.thread x.outcome x.event m

/-- No libevent call fails inside the callback, and a read brings fewer than 16384 bytes. -/
def Favourable (_ : Memory) (x : Invocation) : Prop :=
  x.outcome.launched = true ∧
    match x.event with
    | .accept _ => x.outcome.addr ≠ none
    | .readComplete _ data _ => data.length < maxToReadEver
    | .writeComplete _ _ _ => True

section Invocations

variable {m m' : Memory} {σ : Service} {t : Tid} {o : Outcome}

/-- An accepted socket is the accept callback. -/
theorem accept_refines {sa : SockaddrIn} (h : Refines m σ) (hserved : Served σ)
    (hl : o.launched = true) (ho : o.addr ≠ none)
    (hinvoke : callback t o (.accept sa) m = some m') :
    ∃ σ', Reach Service.step ChunkFits σ σ' ∧ Refines m' σ' := by
  obtain ⟨p, hp⟩ := Option.ne_none_iff_exists'.mp ho
  have hfresh : m.heap p = none := by
    cases hb : m.heap p with
    | none => rfl
    | some b => simp [callback, start, finish, exec, hp, hb] at hinvoke
  obtain ⟨b, hcb, hconn, hfreed, happ, hrest⟩ := callback_accept (t := t) sa hl hp hfresh
  obtain rfl := Option.some.inj (hcb.symm.trans hinvoke)
  have hnone : σ.allocated p = none := by rw [h.allocated, Memory.allocated, hfresh]; rfl
  exact ⟨σ.listenerCb p sa, Reach.init.step (l := .listenerCb p sa) trivial (if_pos hnone),
    h.listenerCb hserved rfl rfl rfl hconn hfreed happ hrest⟩

/-- A completion for a bufferevent that has been freed is no callback. -/
theorem stale_refines {e : Event} {p : Addr} {b : Bufferevent} {r : Memory × List Frame}
    (h : Refines m σ) (hp : m.heap p = some b) (hfreed : b.freed = true) (he : e.Completes p)
    (hr : start t e m = some r) (hinvoke : callback t o e m = some m') :
    ∃ σ', Reach Service.step ChunkFits σ σ' ∧ Refines m' σ' := by
  obtain ⟨b', hcb, hclosed⟩ := callback_stale (o := o) hp (h.rest p b hp) hfreed he hr
  obtain rfl := Option.some.inj (hcb.symm.trans hinvoke)
  exact ⟨σ, Reach.init, h.stale hp hfreed rfl rfl rfl hclosed⟩

/-- A completion that reports EOF or an error is the event callback. -/
theorem fails_refines {e : Event} {p : Addr} {b : Bufferevent} {r : Memory × List Frame}
    (h : Refines m σ) (hp : m.heap p = some b) (hfreed : b.freed = false) (he : e.Fails p)
    (hr : start t e m = some r) (hinvoke : callback t o e m = some m') :
    ∃ σ', Reach Service.step ChunkFits σ σ' ∧ Refines m' σ' := by
  obtain ⟨b', w, hcb, hclosed⟩ := callback_fails (o := o) hp (h.rest p b hp) hfreed he hr
  obtain rfl := Option.some.inj (hcb.symm.trans hinvoke)
  refine ⟨σ.eventcb b.conn p w, Reach.init.step (l := .eventcb p w) trivial ?_,
    h.eventcb hp rfl rfl rfl hclosed⟩
  rw [Service.step, h.allocated_of_heap hp hfreed, Option.map_some]

/-- A read that brings data is the read callback. -/
theorem delivers_refines {p : Addr} {b : Bufferevent} {data : List Byte}
    {r : Memory × List Frame} (h : Refines m σ) (hserved : Served σ) (hl : o.launched = true)
    (hlen : data.length < maxToReadEver) (hdata : data ≠ []) (hp : m.heap p = some b)
    (hfreed : b.freed = false) (hr : start t (.readComplete p data true) m = some r)
    (hinvoke : callback t o (.readComplete p data true) m = some m') :
    ∃ σ', Reach Service.step ChunkFits σ σ' ∧ Refines m' σ' := by
  have hp' := h.allocated_of_heap hp hfreed
  obtain ⟨-, hrip, hle, -⟩ := start_readComplete hp hr
  have hmem : p ∈ m.mapClient := by
    obtain ⟨sa, hlookup, -⟩ := hserved.entry p b.conn hp'
    rw [h.mapClient] at hlookup
    exact Finmap.lookup_isSome.mp (by rw [hlookup]; rfl)
  obtain ⟨b', hcb, hconn, hfreed', happ, hrest'⟩ :=
    callback_read (t := t) hl hp (h.rest p b hp) hfreed hmem hrip hle hdata hlen.le
  obtain rfl := Option.some.inj (hcb.symm.trans hinvoke)
  refine ⟨σ.readcb b.conn p data o.now o.past o.stray,
    Reach.init.step (l := .readcb p data o.now o.past o.stray) ⟨?_, hlen⟩ ?_,
    h.readcb hp hfreed hmem rfl rfl rfl hconn hfreed' happ hrest'⟩
  · exact List.length_pos_of_ne_nil hdata
  · rw [Service.step, hp', Option.map_some, if_neg hdata]

/-- A sequence of uninterrupted callbacks is a run of the server that starts and ends with all
threads idle. -/
theorem reach_of_invocations {m₀ : Memory} {C : Memory → Invocation → Prop}
    (h : Reach Memory.invoke C m₀ m) :
    Reach server.step Always ⟨m₀, fun _ => []⟩ ⟨m, fun _ => []⟩ := by
  refine h.invariant
    (fun m => Reach server.step Always ⟨m₀, fun _ => []⟩ ⟨m, fun _ => []⟩) Reach.init ?_
  intro m m' x hreach _ hinvoke
  obtain ⟨ls, hls⟩ := run_of_callback hinvoke
  exact hreach.trans (reach_of_run (along_always _ ls _) hls)

/-- **An uninterrupted callback in which no libevent call fails is an atomic callback**, or
none when it only writes more of the output or finds its bufferevent closed. -/
theorem callback_refines {x : Invocation} (h : Refines m σ) (hserved : Served σ)
    (hfav : Favourable m x) (hinvoke : m.invoke x = some m') :
    ∃ σ', Reach Service.step ChunkFits σ σ' ∧ Refines m' σ' := by
  obtain ⟨t, o, e⟩ := x
  obtain ⟨hl, hevent⟩ := hfav
  obtain ⟨r, hr, -⟩ := Option.bind_eq_some_iff.mp hinvoke
  cases e with
  | accept sa => exact accept_refines h hserved hl hevent hinvoke
  | readComplete p data ok =>
      have hc : Event.Completes p (.readComplete p data ok) := rfl
      obtain ⟨b, hp⟩ := heap_of_start hc hr
      cases hfreed : b.freed with
      | true => exact stale_refines h hp hfreed hc hr hinvoke
      | false =>
          by_cases hgood : ok = true ∧ data ≠ []
          · obtain ⟨rfl, hdata⟩ := hgood
            exact delivers_refines h hserved hl hevent hdata hp hfreed hr hinvoke
          · have hfails : Event.Fails p (.readComplete p data ok) := ⟨rfl, hgood⟩
            exact fails_refines h hp hfreed hfails hr hinvoke
  | writeComplete p nbytes ok =>
      have hc : Event.Completes p (.writeComplete p nbytes ok) := rfl
      obtain ⟨b, hp⟩ := heap_of_start hc hr
      cases hfreed : b.freed with
      | true => exact stale_refines h hp hfreed hc hr hinvoke
      | false =>
          by_cases hgood : ok = true ∧ nbytes ≠ 0
          · obtain ⟨rfl, hn⟩ := hgood
            obtain ⟨-, hwip, hle, -⟩ := start_writeComplete hp hr
            obtain ⟨b', hcb, hconn, hfreed', happ, hrest⟩ :=
              callback_written (t := t) hl hp (h.rest p b hp) hfreed hwip hle hn
            obtain rfl := Option.some.inj (hcb.symm.trans hinvoke)
            exact ⟨σ, Reach.init, h.written hp hfreed rfl rfl rfl hconn hfreed' happ hrest⟩
          · have hfails : Event.Fails p (.writeComplete p nbytes ok) := ⟨rfl, hgood⟩
            exact fails_refines h hp hfreed hfails hr hinvoke

/-- **A run of uninterrupted callbacks is a run of atomic ones**, and what it has appended to
the output of a connection is what the history of that connection says. -/
theorem refines_of_callbacks (h : Reach Memory.invoke Favourable State.init.mem m) :
    ∃ σ, Reach Service.step ChunkFits Service.init σ ∧ Refines m σ ∧
      ∀ p b, m.heap p = some b → b.appended = outputs none (σ.historyOf b.conn) := by
  have hrun : ∃ σ, Reach Service.step ChunkFits Service.init σ ∧ Refines m σ := by
    refine h.invariant (fun m => ∃ σ, Reach Service.step ChunkFits Service.init σ ∧ Refines m σ)
      ⟨Service.init, Reach.init, rfl, rfl, rfl, ?_, ?_, ?_, ?_⟩ ?_
    · simp [State.init]
    · simp [State.init]
    · simp [State.init]
    · simp [State.init]
    · rintro m m' x ⟨σ, hreach, href⟩ hfav hinvoke
      obtain ⟨σ', hreach', href'⟩ := callback_refines href (served_of_reach hreach) hfav hinvoke
      exact ⟨σ', hreach.trans hreach', href'⟩
  obtain ⟨σ, hreach, href⟩ := hrun
  refine ⟨σ, hreach, href, fun p b hp => ?_⟩
  rw [href.output p b hp, (served_of_reach hreach).output]

end Invocations

end IocpEcho
