import IocpEcho.EventOps

/-!
# Timeouts

How long the event base may wait, what it does when its clock has been set back, and what
becomes of the events whose time has come. The heap is only a means: `timeout_next` looks at
its top and `timeout_process` takes one event after the other from it, but what they compute is
said here of all the events that wait for a time.

## Main results

* `EventBase.Wf.timeoutNext`: the event base waits no longer than until the first event is due.
* `EventBase.Wf.timeoutCorrect`: when the clock has been set back by some time, every timeout is
  moved by the same.
* `EventBase.Wf.timeoutProcess`: exactly the events whose time has come become active.
-/

namespace IocpEcho

namespace EventLoop

open Heaps

/-! ### Times that are normal -/

/-- The times of an event that are ever looked at are normal. -/
structure Event.Timely (e : Event) : Prop where
  timeout : e.evFlags.timeout = true → e.evTimeout.Normal
  interval : e.evClosure = .persist → e.evIoTimeout.Normal
  again : e.evClosure = .persist → e.evIoTimeout ≠ evutilTimerclear → e.evTimeout.Normal

theorem Event.timely_plain {e : Event} : e.plain.Timely ↔ e.Timely :=
  ⟨fun h => ⟨h.timeout, h.interval, h.again⟩, fun h => ⟨h.timeout, h.interval, h.again⟩⟩

theorem Event.Timely.of_plain {e e' : Event} (h : e.Timely) (heq : e'.plain = e.plain) :
    e'.Timely := by
  rw [← Event.timely_plain, heq, Event.timely_plain]
  exact h

theorem Event.Timely.unqueued {e : Event} (h : e.Timely) : e.unqueued.Timely where
  timeout hf := by cases hf
  interval := h.interval
  again := h.again

theorem Event.Timely.activated {e : Event} (h : e.Timely) (res : What) (ncalls : ℕ) :
    (e.activated res ncalls).Timely := by
  unfold Event.activated
  split <;> exact ⟨h.timeout, h.interval, h.again⟩

theorem Event.Timely.entered {e : Event} (h : e.Timely) : e.entered.Timely := by
  unfold Event.entered
  split <;> exact ⟨h.timeout, h.interval, h.again⟩

theorem Event.Timely.flag {e : Event} (h : e.Timely) {queue : Queue} (hqueue : queue ≠ .timeout)
    (v : Bool) : (e.flag queue v).Timely := by
  cases queue with
  | inserted | active => exact ⟨h.timeout, h.interval, h.again⟩
  | timeout => exact absurd rfl hqueue

theorem Event.Timely.timed {e : Event} (h : e.Timely) {tv due : Timeval} {tvIsAbsolute : Bool}
    (htv : tv.Normal) (hdue : due.Normal) : (e.timed tv tvIsAbsolute due).Timely := by
  refine ⟨fun _ => hdue, fun hc => ?_, fun _ _ => hdue⟩
  change (if _ then tv else e.evIoTimeout).Normal
  split
  · exact htv
  · exact h.interval hc

/-- An event whose time, if it waits for one, is moved back by `off`. -/
def Event.movedBack (off : Timeval) (e : Event) : Event :=
  if e.evFlags.timeout then { e with evTimeout := evutilTimersub e.evTimeout off } else e

/-- The event waits for a time that has come. -/
def Event.due (now : Timeval) (e : Event) : Bool :=
  e.evFlags.timeout && !evutilTimercmp e.evTimeout now fun x y => decide (x > y)

/-- An event whose time has come is active, and in no other queue. -/
def Event.expired (now : Timeval) (e : Event) : Event :=
  if e.due now then e.unqueued.activated { timeout := true } 1 else e

theorem Event.expired_of_due {now : Timeval} {e : Event} (h : e.due now = true) :
    e.expired now = e.unqueued.activated { timeout := true } 1 := if_pos h

theorem Event.expired_of_not_due {now : Timeval} {e : Event} (h : e.due now = false) :
    e.expired now = e := if_neg (by rw [h]; exact Bool.false_ne_true)

theorem Event.plain_expired (now : Timeval) : Plain (Event.expired now) := by
  refine Plain.of_idx fun e i => ?_
  have hdue : ({ e with minHeapIdx := i } : Event).due now = e.due now := rfl
  cases h : e.due now with
  | true =>
      rw [Event.expired_of_due h, Event.expired_of_due (hdue.trans h)]
      exact Event.plain_activated _ _ _ _ rfl
  | false =>
      rw [Event.expired_of_not_due h, Event.expired_of_not_due (hdue.trans h)]
      rfl

theorem Event.due_expired (now : Timeval) (e : Event) : (e.expired now).due now = false := by
  cases h : e.due now with
  | true =>
      rw [Event.expired_of_due h]
      rfl
  | false => rw [Event.expired_of_not_due h, h]

theorem Event.Timely.expired {e : Event} (h : e.Timely) (now : Timeval) :
    (e.expired now).Timely := by
  unfold Event.expired
  split
  · exact h.unqueued.activated _ _
  · exact h

theorem Event.Timely.movedBack {e : Event} (h : e.Timely) {off : Timeval} (hoff : off.Normal) :
    (e.movedBack off).Timely := by
  unfold Event.movedBack
  split
  · rename_i hflag
    have hnormal := (h.timeout hflag).timersub hoff
    exact ⟨fun _ => hnormal, h.interval, fun _ _ => hnormal⟩
  · exact h

namespace EventBase

variable {b : EventBase} {clock now : Timeval}

/-- All times are normal. -/
def Timely (m : Events) : Prop := ∀ e, (m e).Timely

theorem Timely.of_plain {m m' : Events} (h : Timely m) (heq : m'.plain = m.plain) : Timely m' :=
  fun e => (h e).of_plain (congrFun heq e)

theorem Timely.change {m : Events} (h : Timely m) {ev : EventPtr} {f : Event → Event}
    (hf : (f (m ev)).Timely) : Timely (m.change ev f) := by
  intro e
  by_cases he : e = ev
  · rw [he, Events.change_self]
    exact hf
  · rw [Events.change_of_ne _ _ he]
    exact h e

/-! ### How long to wait -/

theorem evutilTimercmp_le {s t : Timeval} :
    evutilTimercmp s t (fun a b => decide (a ≤ b)) = true ↔ s.key ≤ t.key := by
  rw [← not_lt, Timeval.key_lt, evutilTimercmp]
  split <;> simp <;> omega

theorem evutilTimercmp_ge {s t : Timeval} :
    evutilTimercmp s t (fun a b => decide (a ≥ b)) = true ↔ t.key ≤ s.key := by
  rw [← not_lt, Timeval.key_lt, evutilTimercmp]
  split <;> simp <;> omega

/-- What `timeout_next` says is right for a loop that starts to wait at `now`. -/
def WaitsRight (m : Events) (now : Timeval) : Option Timeval → Prop
  | none => ∀ e, (m e).evFlags.timeout = false
  | some tv => tv = evutilTimerclear ∨
      ∀ e, (m e).evFlags.timeout = true → now.usec + tv.usec ≤ (m e).evTimeout.usec

/-- **Waiting.** `timeout_next` never fails its assertions, and does not let the loop wait beyond
the time of any event. -/
theorem Wf.timeoutNext (h : b.Wf) (ht : Timely b.events) (hnow : (b.gettime clock).Normal) :
    ∃ tv, b.timeoutNext clock = some tv ∧ WaitsRight b.events (b.gettime clock) tv := by
  rw [EventBase.timeoutNext]
  obtain ⟨htop, hempty⟩ | ⟨e, he, htop, hle⟩ := h.queues.heap.top
  · rw [htop]
    refine ⟨none, rfl, fun x => ?_⟩
    exact Bool.eq_false_iff.mpr (Set.eq_empty_iff_forall_notMem.mp hempty x)
  · rw [htop]
    dsimp only
    by_cases hdue : evutilTimercmp (b.events e).evTimeout (b.gettime clock) fun x y =>
      decide (x ≤ y)
    · rw [if_pos hdue]
      exact ⟨_, rfl, Or.inl rfl⟩
    · have hnormal := (ht e).timeout he
      rw [evutilTimercmp_le, not_le, hnow.key_lt hnormal] at hdue
      rw [if_neg (by rw [evutilTimercmp_le, not_le, hnow.key_lt hnormal]; exact hdue)]
      have husec := usec_evutilTimersub (b.events e).evTimeout (b.gettime clock)
      have hsub := hnormal.timersub hnow
      have hsec : 0 ≤ (evutilTimersub (b.events e).evTimeout (b.gettime clock)).tvSec := by
        have hlt := hsub.2
        rw [Timeval.usec] at husec
        omega
      rw [if_pos ⟨hsec, hsub.1⟩]
      refine ⟨_, rfl, Or.inr fun x hx => ?_⟩
      have hkey := hle x hx
      rw [timeoutKey, timeoutKey, hnormal.key_le ((ht x).timeout hx)] at hkey
      omega

/-! ### A clock that has been set back -/

/-- The events at the places from `i` on are moved, each once. -/
theorem subtractFrom_spec {s : MinHeap} {off : Timeval} : ∀ (size i : ℕ) (m : Events),
    i + size ≤ s.a → (∀ j < i + size, ∀ k < i + size, s.p j = s.p k → j = k) →
    ∃ m', subtractFrom s off size i m = some m' ∧
      (∀ j, i ≤ j → j < i + size → m' (s.p j) =
        { m (s.p j) with evTimeout := evutilTimersub (m (s.p j)).evTimeout off }) ∧
      ∀ e, (∀ j, i ≤ j → j < i + size → s.p j ≠ e) → m' e = m e
  | 0, i, m, _, _ => ⟨m, rfl, fun j hle hlt => absurd hlt (by omega), fun _ _ => rfl⟩
  | size + 1, i, m, hroom, hinj => by
      set m₁ : Events := Function.update m (s.p i)
        { m (s.p i) with evTimeout := evutilTimersub (m (s.p i)).evTimeout off } with hm₁
      obtain ⟨m', hm', hmoved, hkept⟩ := subtractFrom_spec size (i + 1) m₁ (by omega)
        fun j hj k hk => hinj j (by omega) k (by omega)
      refine ⟨m', ?_, fun j hle hlt => ?_, fun e he => ?_⟩
      · rw [subtractFrom, MinHeap.slot_eq (by omega)]
        exact hm'
      · rcases hle.eq_or_lt with rfl | hlt'
        · have hother : ∀ k, i + 1 ≤ k → k < i + 1 + size → s.p k ≠ s.p i := fun k hk hk' heq => by
            have := hinj k (by omega) i (by omega) heq
            omega
          rw [hkept _ hother, hm₁, Function.update_self]
        · have hne : s.p j ≠ s.p i := fun heq => by
            have := hinj j hlt i (by omega) heq
            omega
          rw [hmoved j hlt' (by omega), hm₁, Function.update_of_ne hne]
      · rw [hkept e fun j hle hlt => he j (by omega) (by omega), hm₁,
          Function.update_of_ne (he i le_rfl (by omega)).symm]

/-- Moving all the times alike keeps the heap in order. -/
theorem Wf.movedBack (h : b.Wf) (ht : Timely b.events) {off : Timeval} (hoff : off.Normal) :
    ({ b with events := fun e => (b.events e).movedBack off } : EventBase).Wf := by
  have hcases : ∀ e : Event, (e.movedBack off).evFlags = e.evFlags ∧
      (e.movedBack off).evPri = e.evPri ∧ (e.movedBack off).minHeapIdx = e.minHeapIdx ∧
      (e.movedBack off).kind = e.kind := by
    intro e
    unfold Event.movedBack
    split <;> exact ⟨rfl, rfl, rfl, rfl⟩
  have hslots : slots b.timeheap (fun e => (b.events e).movedBack off) =
      slots b.timeheap b.events :=
    congrArg (Slots.mk b.timeheap.p) (funext fun e => (hcases _).2.2.1)
  have hq : ({ b.toQueues with events := fun e => (b.events e).movedBack off } : Queues).Wf := by
    refine h.queues.congr_heap (fun e => (hcases _).1) (fun e => (hcases _).2.1)
      (fun e => (hcases _).2.2.1) ⟨h.queues.heap.room, ?_, ?_, fun x hx => ?_⟩
    · rw [hslots]
      simp only [(hcases _).1]
      exact h.queues.heap.full
    · refine h.queues.heap.ordered.of_monotone fun i hi j hj hle => ?_
      have hkey : ∀ k < b.timeheap.n,
          timeoutKey (fun e => (b.events e).movedBack off) (b.timeheap.p k) =
            (evutilTimersub (b.events (b.timeheap.p k)).evTimeout off).key := fun k hk => by
        have hin : (b.events (b.timeheap.p k)).evFlags.timeout = true := h.queues.heap.full.mem k hk
        rw [timeoutKey, Event.movedBack, if_pos hin]
      have hnormal : ∀ k < b.timeheap.n, (b.events (b.timeheap.p k)).evTimeout.Normal :=
        fun k hk => (ht _).timeout (h.queues.heap.full.mem k hk)
      rw [timeoutKey, timeoutKey, (hnormal i hi).key_le (hnormal j hj)] at hle
      rw [hkey i hi, hkey j hj,
        ((hnormal i hi).timersub hoff).key_le ((hnormal j hj).timersub hoff),
        usec_evutilTimersub, usec_evutilTimersub]
      omega
    · rw [(hcases _).2.2.1]
      refine h.queues.heap.out x fun hin => hx ?_
      rw [Set.mem_ofPred_eq, (hcases _).1]
      exact hin
  exact h.withQueues hq (fun e => (hcases _).2.2.2) fun e => congrArg _ (hcases _).1

theorem evutilTimersub_clear {t : Timeval} (ht : t.Normal) :
    evutilTimersub t evutilTimerclear = t := by
  have hnot : ¬ t.tvUsec - 0 < 0 := by
    have hle := ht.1
    omega
  rw [evutilTimersub, evutilTimerclear, if_neg hnot, sub_zero, sub_zero]

/-- **The clock has been set back.** `timeout_correct` moves all timeouts by as much as the clock
has been set back since it last looked, and does nothing if it has not been. -/
theorem Wf.timeoutCorrect (h : b.Wf) (ht : Timely b.events) (hnow : (b.gettime clock).Normal)
    (hlast : b.eventTv.Normal) : ∃ off : Timeval, off.Normal ∧
      off.usec = max 0 (b.eventTv.usec - (b.gettime clock).usec) ∧
      b.timeoutCorrect clock = some { b with
        events := fun e => (b.events e).movedBack off
        eventTv := b.gettime clock } ∧
      ({ b with
        events := fun e => (b.events e).movedBack off
        eventTv := b.gettime clock } : EventBase).Wf := by
  rw [EventBase.timeoutCorrect]
  dsimp only
  by_cases hge : evutilTimercmp (b.gettime clock) b.eventTv fun x y => decide (x ≥ y)
  · have hle := evutilTimercmp_ge.mp hge
    rw [hlast.key_le hnow] at hle
    have hclear : evutilTimerclear.Normal := by decide
    have hsame : (fun e => (b.events e).movedBack evutilTimerclear) = b.events := by
      funext e
      unfold Event.movedBack
      split
      · rename_i hflag
        rw [evutilTimersub_clear ((ht e).timeout hflag)]
      · rfl
    rw [if_pos hge]
    have husec : evutilTimerclear.usec = 0 := rfl
    refine ⟨evutilTimerclear, hclear, (max_eq_left ?_).symm, by rw [hsame], ?_⟩
    · omega
    · rw [hsame]
      exact ⟨h.queues, h.io, h.signals⟩
  · rw [if_neg hge]
    rw [evutilTimercmp_ge, not_le, hnow.key_lt hlast] at hge
    have hoff := hlast.timersub hnow
    set off := evutilTimersub b.eventTv (b.gettime clock) with hoff_def
    have husec : off.usec = b.eventTv.usec - (b.gettime clock).usec := usec_evutilTimersub ..
    have hfull := h.queues.heap.full
    have hroom := h.queues.heap.room
    obtain ⟨m, hm, hmoved, hkept⟩ := @subtractFrom_spec b.timeheap off b.timeheap.n 0 b.events
      (by omega) fun j hj k hk heq => hfull.injOn (by omega) (by omega) heq
    -- every event that waits for a time stands at one place of the heap
    have hall : m = fun e => (b.events e).movedBack off := by
      funext e
      unfold Event.movedBack
      cases hflag : (b.events e).evFlags.timeout with
      | true =>
          obtain ⟨j, hj, hje⟩ := hfull.all e hflag
          rw [if_pos rfl, ← hje]
          exact hmoved j (Nat.zero_le j) (by omega)
      | false =>
          rw [if_neg Bool.false_ne_true]
          refine hkept e fun j _ hj hje => ?_
          have hin : (b.events (b.timeheap.p j)).evFlags.timeout = true := hfull.mem j (by omega)
          rw [hje, hflag] at hin
          cases hin
    subst hall
    have hwf := h.movedBack ht hoff
    refine ⟨off, hoff, ?_, ?_, ⟨hwf.queues, hwf.io, hwf.signals⟩⟩
    · rw [husec, max_eq_right (by omega)]
    · rw [hm]
      rfl

/-! ### Times that have come -/

/-- No event is due, so there is nothing to be done. -/
theorem Wf.does_not_due (h : b.Wf) (hnone : ∀ e, (b.events e).due now = false) :
    Does b b fun e => (b.events e).expired now := by
  have hsame : (fun e => (b.events e).expired now) = b.events :=
    funext fun e => Event.expired_of_not_due (hnone e)
  rw [hsame]
  exact h.does_refl

/-- The loop of `timeout_process`. Every round turns one more event that is due into what it is
to be, and takes it out of the heap. -/
theorem Wf.timeoutLoop : ∀ (fuel : ℕ) {b : EventBase}, b.Wf →
    (∀ e, (b.events e).evPri < b.nactivequeues) → b.timeheap.n ≤ fuel →
    ∃ b', timeoutLoop now fuel b = some b' ∧ Does b b' fun e => (b.events e).expired now
  | 0, b, h, _, hfuel => by
      have hempty := h.queues.heap.full.eq_zero_iff.mp (Nat.le_zero.mp hfuel)
      refine ⟨b, rfl, h.does_not_due fun e => ?_⟩
      rw [Event.due, Bool.and_eq_false_iff]
      exact Or.inl (Bool.eq_false_iff.mpr (Set.eq_empty_iff_forall_notMem.mp hempty e))
  | fuel + 1, b, h, hpri, hfuel => by
      rw [EventBase.timeoutLoop]
      obtain ⟨htop, hempty⟩ | ⟨ev, hev, htop, hle⟩ := h.queues.heap.top
      · rw [htop]
        refine ⟨b, rfl, h.does_not_due fun e => ?_⟩
        rw [Event.due, Bool.and_eq_false_iff]
        exact Or.inl (Bool.eq_false_iff.mpr (Set.eq_empty_iff_forall_notMem.mp hempty e))
      have hin : (b.events ev).evFlags.timeout = true := hev
      rw [htop]
      dsimp only
      by_cases hlater : evutilTimercmp (b.events ev).evTimeout now fun x y => decide (x > y)
      · rw [if_pos hlater]
        -- the top is the first that is due, and it is not due yet
        refine ⟨b, rfl, h.does_not_due fun e => ?_⟩
        cases hflag : (b.events e).evFlags.timeout with
        | false => rw [Event.due, hflag, Bool.false_and]
        | true =>
            have hkey := evutilTimercmp_gt.mp hlater
            rw [Event.due, evutilTimercmp_gt.mpr (hkey.trans_le (hle e hflag)), Bool.not_true,
              Bool.and_false]
      · rw [if_neg hlater]
        have hdue : (b.events ev).due now = true := by
          rw [Event.due, hin, Bool.eq_false_iff.mpr hlater]
          rfl
        obtain ⟨b₁, hb₁, h₁, -, hn₁, -⟩ := h.eventDelInternal true ev
        obtain ⟨b₂, hb₂, h₂, hheap₂, -⟩ := h₁.wf.eventActiveNolock true ev { timeout := true } 1
          (h₁.pri_lt hpri ev)
        have h₀₂ := h₁.change h₂ (Event.plain_activated _ _)
        rw [hin, if_pos rfl] at hn₁
        obtain ⟨b', hb', h'⟩ := h₂.wf.timeoutLoop fuel (h₀₂.pri_lt hpri) (by rw [hheap₂]; omega)
        refine ⟨b', by simp only [hb₁, hb₂, hb', bind, Option.bind], (h₀₂.trans h').of_plain ?_⟩
        funext e
        change ((b₂.events e).expired now).plain = ((b.events e).expired now).plain
        rw [Event.plain_expired now _ _ (congrFun h₀₂.plain e)]
        by_cases he : e = ev
        · subst he
          rw [Events.change_self, ← Event.expired_of_due hdue,
            Event.expired_of_not_due (Event.due_expired ..)]
        · rw [Events.change_of_ne _ _ he]

/-- **Times that have come.** `timeout_process` makes exactly those events active whose time has
come, and no event waits any more for a time that has come. -/
theorem Wf.timeoutProcess (h : b.Wf) (hpri : ∀ e, (b.events e).evPri < b.nactivequeues) :
    ∃ b', b.timeoutProcess clock = some b' ∧
      Does b b' fun e => (b.events e).expired (b.gettime clock) := by
  rw [EventBase.timeoutProcess]
  split
  · rename_i hzero
    have hempty := h.queues.heap.full.eq_zero_iff.mp hzero
    refine ⟨b, rfl, h.does_not_due fun e => ?_⟩
    rw [Event.due, Bool.and_eq_false_iff]
    exact Or.inl (Bool.eq_false_iff.mpr (Set.eq_empty_iff_forall_notMem.mp hempty e))
  · exact h.timeoutLoop _ hpri le_rfl

end EventBase

end EventLoop

end IocpEcho
