import IocpEcho.EventLoop
import IocpEcho.Interleaving

/-!
# What holds while the Loop runs

The invariant of the event loop, over all the steps of its thread and all the calls of other
threads between them.

## Main results

* `Loop.inv_step`: every enabled step succeeds, and keeps the invariant.
-/

namespace IocpEcho

namespace EventLoop

open Heaps Finset Interleaving

/-! ### What `select` is told -/

namespace EventBase

variable {b : EventBase} {ev : EventPtr} {clock : Timeval} {i : ℕ}

/-- The sets hold the sockets with an event that waits for them. -/
theorem Wf.has_iff (h : b.Wf) (d : Bool) (fd : Socket) :
    (b.ioMap.evbase.set d).Has fd ↔ fd ∈ b.ioMap.interest d := by
  have hfull := (h.io.watches.sets d).full
  constructor
  · rintro ⟨i, hi, rfl⟩
    exact hfull.mem i hi
  · intro hfd
    exact hfull.all fd hfd

/-- The sockets that are watched are those of the events that wait for them. -/
theorem Wf.mem_interest_iff (h : b.Wf) {d : Bool} {fd : Socket} : fd ∈ b.ioMap.interest d ↔
    0 ≤ fd ∧ ∃ e, (b.events e).evFlags.inserted = true ∧ (b.events e).evFd = fd ∧
      (if d then (b.events e).evEvents.read else (b.events e).evEvents.write) = true := by
  have hbit : ∀ {l : List EventPtr} {nread nwrite : ℕ},
      b.ioMap.lists fd = some (l, nread, nwrite) → bit nread nwrite d = l.countP fun e =>
        if d then (b.events e).evEvents.read else (b.events e).evEvents.write := fun hl => by
    have hbooked := h.io.booked _ _ _ _ hl
    cases d with
    | true => exact hbooked.nread_eq
    | false => exact hbooked.nwrite_eq
  constructor
  · rintro ⟨l, nread, nwrite, hl, hpos⟩
    have hbooked := h.io.booked _ _ _ _ hl
    rw [hbit hl, List.countP_pos_iff] at hpos
    obtain ⟨e, he, hwaits⟩ := hpos
    obtain ⟨hmem, hfd⟩ := (hbooked.mem_iff e).mp he
    exact ⟨hbooked.nonneg, e, hmem.1, hfd, hwaits⟩
  · rintro ⟨hnonneg, e, hin, rfl, hwaits⟩
    have hmem : e ∈ { e | WaitsIo b.events e } := by
      refine ⟨hin, ?_⟩
      rw [Bool.or_eq_true]
      cases d with
      | true => exact Or.inl hwaits
      | false => exact Or.inr hwaits
    have hsome := h.io.all e hmem hnonneg
    rw [← IoMap.isSome_lists] at hsome
    obtain ⟨⟨l, nread, nwrite⟩, hl⟩ := Option.isSome_iff_exists.mp hsome
    refine ⟨l, nread, nwrite, hl, ?_⟩
    rw [hbit hl]
    exact List.countP_pos_iff.mpr
      ⟨e, ((h.io.booked _ _ _ _ hl).mem_iff e).mpr ⟨hmem, rfl⟩, hwaits⟩

theorem Wf.isSome_of_interest (h : b.Wf) {d : Bool} {fd : Socket}
    (hfd : fd ∈ b.ioMap.interest d) : (b.ioMap.io fd).isSome :=
  (h.io.watches.sets d).isSome hfd

/-- Nothing is active if nothing is counted. -/
theorem Wf.not_active (h : b.Sound) (hzero : b.nActiveCallbacks = 0) :
    (∀ e, (b.events e).evFlags.active = false) ∧ ∀ cb, b.queued cb = false := by
  have hcount := h.wf.queues.eventCountActive
  have hdeferred := h.activeCount
  rw [nActiveCallbacks] at hzero
  have hnone : (∑ i ∈ range b.nactivequeues, (b.activequeues i).length) = 0 := by omega
  have hlist : b.deferredCbList.length = 0 := by omega
  constructor
  · intro e
    by_contra hactive
    have hactive' : (b.events e).evFlags.active = true := by simpa using hactive
    have hmem := ((h.wf.queues.active (b.events e).evPri).2 e).mpr ⟨hactive', rfl⟩
    have hlen := (sum_eq_zero_iff.mp hnone) _ (mem_range.mpr (h.pri e))
    rw [List.length_eq_zero_iff] at hlen
    rw [hlen] at hmem
    cases hmem
  · intro cb
    by_contra hqueued
    have hqueued' : b.queued cb = true := by simpa using hqueued
    have hmem := (h.deferred.2 cb).mpr hqueued'
    rw [List.length_eq_zero_iff.mp hlist] at hmem
    cases hmem

/-- Only the event of `th_notify` is in a queue if no event counts. -/
theorem Sound.idle (h : b.Sound) (hnone : b.eventHaveevents = false) {e : EventPtr}
    (he : (b.events e).evFlags.internal = false) : (b.events e).Idle := by
  have hcount := h.wf.queues.eventCount
  have hexternal : external b.events e = true := by rw [external, he]; rfl
  have hpos : ∀ {l : List EventPtr}, e ∈ l → 0 < l.countP (external b.events) := fun hmem =>
    List.countP_pos_iff.mpr ⟨e, hmem, hexternal⟩
  have hzero : b.queuedCount = 0 := by
    rw [eventHaveevents, Bool.or_eq_false_iff, decide_eq_false_iff_not,
      decide_eq_false_iff_not] at hnone
    omega
  rw [Queues.queuedCount, Nat.add_eq_zero_iff, Nat.add_eq_zero_iff] at hzero
  obtain ⟨⟨hqueue, hactives⟩, helems⟩ := hzero
  refine ⟨?_, ?_, ?_⟩
  · by_contra hin
    have hmem := (h.wf.queues.inserted.2 e).mpr (by simpa using hin)
    exact (hpos hmem).ne' hqueue
  · by_contra hactive
    have hmem := ((h.wf.queues.active _).2 e).mpr ⟨by simpa using hactive, rfl⟩
    exact (hpos hmem).ne' (sum_eq_zero_iff.mp hactives _ (mem_range.mpr (h.pri e)))
  · by_contra htimeout
    have hin : (b.events e).evFlags.timeout = true := by simpa using htimeout
    exact (hpos (h.wf.queues.heap.full.mem_elems.mpr hin)).ne' helems

/-! ### The invariant -/

/-- Nothing has come up since the loop began to wait for at most `tv` with these sets: there is
nothing to run, every socket with an event is watched, and no event is due before the end of
the wait, which has begun at `eventTv` at the earliest. -/
structure Rests (b : EventBase) (tv : Option Timeval) (r w : WinFdSet) : Prop where
  active : ∀ e, (b.events e).evFlags.active = false
  deferred : ∀ cb, b.queued cb = false
  goesOn : b.eventBreak = false
  interest : ∀ d fd, fd ∈ b.ioMap.interest d → (if d then r else w).Has fd
  waits : WaitsRight b.events b.eventTv tv

theorem Rests.of_still {b' : EventBase} {tv : Option Timeval} {r w : WinFdSet}
    (h : Rests b tv r w) (hs : Still b b') (htv : b'.eventTv = b.eventTv)
    (ht : Timely b.events) (ht' : Timely b'.events) : Rests b' tv r w := by
  refine ⟨fun e => ?_, fun cb => ?_, ?_, fun d fd hfd => h.interest d fd (hs.quiet.interest d hfd),
    ?_⟩
  · by_contra hactive
    have hold := hs.quiet.active e (by simpa using hactive)
    rw [h.active e] at hold
    cases hold
  · by_contra hqueued
    have hold := hs.deferred cb (by simpa using hqueued)
    rw [h.deferred cb] at hold
    cases hold
  · by_contra hbreak
    have hold := hs.loopbreak (by simpa using hbreak)
    rw [h.goesOn] at hold
    cases hold
  · have hwaits := h.waits
    rw [htv]
    cases tv with
    | none =>
        intro e
        by_contra htimeout
        obtain ⟨x, hx, -⟩ := hs.quiet.timeouts e (by simpa using htimeout)
        rw [show (b.events x).evFlags.timeout = false from hwaits x] at hx
        cases hx
    | some tv =>
        refine hwaits.imp_right fun hall e he => ?_
        obtain ⟨x, hx, hle⟩ := hs.quiet.timeouts e he
        rw [((ht x).timeout hx).key_le ((ht' e).timeout he)] at hle
        have hx' := hall x hx
        omega

/-- What holds whenever the thread of the loop has the lock. -/
structure Held (b : EventBase) : Prop where
  sound : b.Sound
  running : b.runningLoop = true
  told : b.isNotifyPending = true → 0 < b.thNotifyBytes

theorem Signals.told {b' : EventBase} (h : Signals b b')
    (htold : b.isNotifyPending = true → 0 < b.thNotifyBytes)
    (hp : b'.isNotifyPending = true) : 0 < b'.thNotifyBytes := by
  rcases h with ⟨hp', hb⟩ | ⟨-, -, -, hb⟩
  · rw [hb]
    exact htold (hp' ▸ hp)
  · omega

theorem Held.keeps {b' : EventBase} (h : b.Held) (hk : Retains b b') (hs : b'.Sound) : b'.Held :=
  ⟨hs, hk.running.trans h.running, fun hp => hk.signals.told h.told hp⟩

/-- Only fields of the loop change that concern nobody else. -/
theorem Held.congr {b' : EventBase} (h : b.Held) (hq : b'.toQueues = b.toQueues)
    (hio : b'.ioMap = b.ioMap) (hsig : b'.sigmap = b.sigmap) (hn : b'.thNotify = b.thNotify)
    (hd : b'.deferredCbList = b.deferredCbList ∧ b'.queued = b.queued ∧
      b'.activeCount = b.activeCount) (htv : b'.eventTv.Normal) (hcache : b'.tvCache.Normal)
    (hrun : b'.runningLoop = b.runningLoop)
    (hp : b'.isNotifyPending = b.isNotifyPending ∧ b'.thNotifyBytes = b.thNotifyBytes) :
    b'.Held := by
  obtain ⟨hlist, hqueued, hcount⟩ := hd
  refine ⟨⟨⟨?_, ?_, ?_⟩, ?_, ?_, ?_, ?_, ?_, ?_, htv, hcache⟩, hrun.trans h.running, ?_⟩
  · rw [hq]
    exact h.sound.wf.queues
  · rw [hio, hq]
    exact h.sound.wf.io
  · rw [hsig, hq]
    exact h.sound.wf.signals
  · rw [hq]
    exact h.sound.timely
  · rw [hq]
    exact h.sound.pri
  · rw [hn, hq]
    exact h.sound.notify
  · rw [hn, hq]
    exact h.sound.internal
  · rw [hlist, hqueued]
    exact h.sound.deferred
  · rw [hlist, hcount]
    exact h.sound.activeCount
  · rw [hp.1, hp.2]
    exact h.told

/-- The counters of an event change. -/
theorem Held.counters (h : b.Held) (ev : EventPtr) (n : Event → ℕ) (p : Event → Option ℕ) :
    (b.modify ev fun e => { e with evNcalls := n e, evPncalls := p e }).Held := by
  have d := h.sound.wf.does_modify ev
    (f := fun e => { e with evNcalls := n e, evPncalls := p e }) (fun _ => ⟨rfl, rfl, rfl⟩) rfl
    fun _ => rfl
  have hkept : ∀ {α : Type} (g : Event → α),
      (∀ e : Event, g { e with evNcalls := n e, evPncalls := p e } = g e) → ∀ x,
      g (b.events.change ev (fun e => { e with evNcalls := n e, evPncalls := p e }) x) =
        g (b.events x) := fun g hg x => Events.update_eq g (hg _) x
  have ht := h.sound.timely ev
  refine h.keeps d.keeps (h.sound.does d
    (h.sound.timely.change ⟨ht.timeout, ht.interval, ht.again⟩) fun x _ hw => ?_)
  exact ⟨(hkept (fun e => e.evFlags.inserted) (fun _ => rfl) x).trans hw.inserted,
    (hkept (fun e => e.evFlags.timeout) (fun _ => rfl) x).trans hw.untimed,
    (hkept Event.evIoTimeout (fun _ => rfl) x).trans hw.interval⟩

theorem Above.counters (h : b.Above i) (ev : EventPtr) (n : Event → ℕ) (p : Event → Option ℕ) :
    (b.modify ev fun e => { e with evNcalls := n e, evPncalls := p e }).Above i := by
  intro x hx
  have hkept : ∀ {α : Type} (g : Event → α),
      (∀ e : Event, g { e with evNcalls := n e, evPncalls := p e } = g e) →
      g ((b.modify ev fun e => { e with evNcalls := n e, evPncalls := p e }).events x) =
        g (b.events x) := fun g hg => Events.update_eq g (hg _) x
  rw [hkept (fun e => e.evFlags.active) fun _ => rfl] at hx
  rw [hkept Event.evPri fun _ => rfl]
  exact h x hx

end EventBase

/-- In `evthread_notify_drain_default` after its loop. -/
def Pc.IsDrained : Pc → Prop
  | drained .. => True
  | _ => False

/-- What holds in a callback of the queue `i`. -/
structure EventBase.InCallback (b : EventBase) (i count : ℕ) : Prop where
  priority : b.eventRunningPriority = i
  counted : 0 < i → 0 < count
  continued : b.eventContinue = true → 0 < i
  above : b.eventContinue = true ∨ b.Above i

theorem EventBase.InCallback.congr {b b' : EventBase} {i count : ℕ} (h : b.InCallback i count)
    (hpri : b'.eventRunningPriority = b.eventRunningPriority)
    (hcontinue : b'.eventContinue = b.eventContinue) (habove : b.Above i → b'.Above i) :
    b'.InCallback i count := by
  refine ⟨hpri.trans h.priority, h.counted, ?_, ?_⟩
  · rw [hcontinue]
    exact h.continued
  · rw [hcontinue]
    exact h.above.imp_right habove

/-- What holds where the thread of the loop is. -/
def Pc.Inv (b : EventBase) : Pc → Prop
  | out | top => b.eventRunningPriority ≤ 0
  | dispatch tv r w => b.eventRunningPriority ≤ 0 ∧ b.eventContinue = false ∧
      (∀ (d : Bool) fd, (if d then r else w).Has fd → (b.ioMap.io fd).isSome) ∧
      (∀ n, b.thNotify = some n → r.Has (b.events n).evFd) ∧
      (tv = some evutilTimerclear ∨ b.isNotifyPending = true ∨ b.Rests tv r w)
  | process i => b.eventContinue = false ∧ b.Above i
  | single i _ => b.eventRunningPriority = i ∧ b.eventContinue = false ∧ b.Above i
  | callback i count _ _ _ | drained i count _ _ | signal i count _ => b.InCallback i count
  | deferred .. | deferredCb .. => True

namespace Loop

open EventBase

/-- The invariant of the loop. -/
structure Inv (s : Loop) : Prop where
  sound : s.base.Sound
  clock : s.clock.Normal
  running : s.base.runningLoop = true ↔ s.pc ≠ .out
  told : s.base.isNotifyPending = true → 0 < s.base.thNotifyBytes ∨ s.pc.IsDrained
  place : s.pc.Inv s.base

variable {s : Loop} {b : EventBase} {ev : EventPtr} {i count : ℕ}

theorem Inv.of_held {pc : Pc} (h : b.Held) (hclock : s.clock.Normal) (hpc : pc ≠ .out)
    (hplace : pc.Inv b) : ({ s with base := b, pc := pc } : Loop).Inv :=
  ⟨h.sound, hclock, ⟨fun _ => hpc, fun _ => h.running⟩, fun hp => Or.inl (h.told hp), hplace⟩

theorem Inv.held (h : s.Inv) (hpc : s.pc ≠ .out) (hdrained : ¬ s.pc.IsDrained) : s.base.Held :=
  ⟨h.sound, h.running.mpr hpc, fun hp => (h.told hp).resolve_right hdrained⟩

theorem inv_leave (h : b.Held) (hclock : s.clock.Normal) (hpri : b.eventRunningPriority ≤ 0)
    (retval : ℤ) : (s.leave b retval).Inv := by
  have hcleared : b.clearTimeCache.Held :=
    h.congr rfl rfl rfl rfl ⟨rfl, rfl, rfl⟩ h.sound.eventTv h.sound.tvCache rfl ⟨rfl, rfl⟩
  obtain ⟨hwf, ht, hp, hn, hi, hd, ha, htv, hc⟩ := hcleared.sound
  exact ⟨⟨⟨hwf.queues, hwf.io, hwf.signals⟩, ht, hp, hn, hi, hd, ha, htv, hc⟩, hclock,
    ⟨by rintro ⟨⟩, fun hne => absurd rfl hne⟩, fun hpending => Or.inl (h.told hpending), hpri⟩

theorem inv_afterProcess (h : b.Held) (hclock : s.clock.Normal) (n : ℤ) :
    (s.afterProcess b n).Inv := by
  have h' : ({ b with eventRunningPriority := -1 } : EventBase).Held :=
    h.congr rfl rfl rfl rfl ⟨rfl, rfl, rfl⟩ h.sound.eventTv h.sound.tvCache rfl ⟨rfl, rfl⟩
  have hpri : ({ b with eventRunningPriority := -1 } : EventBase).eventRunningPriority ≤ 0 := by
    change (-1 : ℤ) ≤ 0
    omega
  unfold afterProcess
  dsimp only
  split
  · exact inv_leave h' hclock hpri 0
  · exact Inv.of_held h' hclock (by rintro ⟨⟩) hpri

theorem inv_afterSingle (h : b.Held) (hclock : s.clock.Normal)
    (hplace : count = 0 → b.eventContinue = false ∧ b.Above (i + 1)) :
    (s.afterSingle b i count).Inv := by
  unfold afterSingle
  split
  · exact Inv.of_held h hclock (by rintro ⟨⟩) trivial
  · exact Inv.of_held h hclock (by rintro ⟨⟩) (hplace (by omega))

theorem inv_afterCallback (h : b.Held) (hclock : s.clock.Normal) (hin : b.InCallback i count) :
    (s.afterCallback b i count).Inv := by
  have h' : ({ b with currentEvent := none } : EventBase).Held :=
    h.congr rfl rfl rfl rfl ⟨rfl, rfl, rfl⟩ h.sound.eventTv h.sound.tvCache rfl ⟨rfl, rfl⟩
  unfold afterCallback
  dsimp only
  split
  · exact inv_afterProcess h' hclock _
  · split
    · rename_i hcontinue
      refine inv_afterSingle h' hclock fun hzero => ?_
      have hpos := hin.counted (hin.continued hcontinue)
      omega
    · rename_i hcontinue
      exact Inv.of_held h' hclock (by rintro ⟨⟩) ⟨hin.priority, Bool.eq_false_iff.mpr hcontinue,
        hin.above.resolve_left hcontinue⟩

theorem inv_afterClosure (h : b.Held) (hclock : s.clock.Normal) (hin : b.InCallback i count)
    (ev : EventPtr) (closure : Closure) : (s.afterClosure b i count ev closure).Inv := by
  cases closure with
  | none | persist => exact inv_afterCallback h hclock hin
  | signal =>
      unfold afterClosure
      dsimp only
      split
      · split
        · have h' := h.counters ev Event.evNcalls fun _ => none
          exact Inv.of_held (h'.congr rfl rfl rfl rfl ⟨rfl, rfl, rfl⟩ h'.sound.eventTv
            h'.sound.tvCache rfl ⟨rfl, rfl⟩) hclock (by rintro ⟨⟩)
            (hin.congr rfl rfl fun ha => ha.counters ev Event.evNcalls fun _ => none)
        · exact Inv.of_held (h.congr rfl rfl rfl rfl ⟨rfl, rfl, rfl⟩ h.sound.eventTv
            h.sound.tvCache rfl ⟨rfl, rfl⟩) hclock (by rintro ⟨⟩) (hin.congr rfl rfl id)
      · exact Inv.of_held h hclock (by rintro ⟨⟩) hin

/-! ### The steps of the thread -/

theorem inv_atDrained {closure : Closure} (h : s.Inv) (hpc : s.pc = .drained i count ev closure) :
    (s.atDrained i count ev closure).Inv := by
  have hin : s.base.InCallback i count := by
    have hplace := h.place
    rwa [hpc] at hplace
  have hrunning := h.running.mpr (by rw [hpc]; rintro ⟨⟩)
  have hs := h.sound
  have h' : ({ s.base with isNotifyPending := false } : EventBase).Held :=
    ⟨⟨⟨hs.wf.queues, hs.wf.io, hs.wf.signals⟩, hs.timely, hs.pri, hs.notify, hs.internal,
      hs.deferred, hs.activeCount, hs.eventTv, hs.tvCache⟩, hrunning,
      fun hp => absurd hp Bool.false_ne_true⟩
  exact inv_afterClosure h' h.clock (hin.congr rfl rfl id) ev closure

theorem inv_atCallback {closure : Closure} {callback : Callback} (h : s.Inv)
    (hpc : s.pc = .callback i count ev closure callback) :
    (s.atCallback i count ev closure callback).Inv := by
  have hin : s.base.InCallback i count := by
    have hplace := h.place
    rwa [hpc] at hplace
  have hheld := h.held (by rw [hpc]; rintro ⟨⟩) (by rw [hpc]; exact id)
  cases callback with
  | user => exact inv_afterClosure hheld h.clock hin ev closure
  | eventLoopexit =>
      have h' : ({ s.base with eventGotterm := true } : EventBase).Held :=
        hheld.congr rfl rfl rfl rfl ⟨rfl, rfl, rfl⟩ hheld.sound.eventTv hheld.sound.tvCache rfl
          ⟨rfl, rfl⟩
      exact inv_afterClosure h' h.clock (hin.congr rfl rfl id) ev closure
  | notifyDrain =>
      have hs := h.sound
      exact ⟨⟨⟨hs.wf.queues, hs.wf.io, hs.wf.signals⟩, hs.timely, hs.pri, hs.notify,
        hs.internal, hs.deferred, hs.activeCount, hs.eventTv, hs.tvCache⟩, h.clock,
        ⟨by rintro - ⟨⟩, fun _ => hheld.running⟩, fun _ => Or.inr trivial, hin.congr rfl rfl id⟩

theorem inv_atSignal (h : s.Inv) (hpc : s.pc = .signal i count ev) :
    (s.atSignal i count ev).Inv := by
  have hin : s.base.InCallback i count := by
    have hplace := h.place
    rwa [hpc] at hplace
  have hheld := h.held (by rw [hpc]; rintro ⟨⟩) (by rw [hpc]; exact id)
  unfold atSignal
  dsimp only
  split
  · exact inv_afterCallback (hheld.congr rfl rfl rfl rfl ⟨rfl, rfl, rfl⟩ hheld.sound.eventTv
      hheld.sound.tvCache rfl ⟨rfl, rfl⟩) h.clock (hin.congr rfl rfl id)
  · set ncalls := s.base.signalNcalls - 1
    have h' : ({ s.base with signalNcalls := ncalls } : EventBase).Held :=
      hheld.congr rfl rfl rfl rfl ⟨rfl, rfl, rfl⟩ hheld.sound.eventTv hheld.sound.tvCache rfl
        ⟨rfl, rfl⟩
    have hin' : ({ s.base with signalNcalls := ncalls } : EventBase).InCallback i count :=
      hin.congr rfl rfl id
    exact Inv.of_held (h'.counters ev (fun _ => ncalls)
      fun e => if ncalls = 0 then none else e.evPncalls) h.clock (by rintro ⟨⟩)
      (hin'.congr rfl rfl fun ha => ha.counters ev _ _)

theorem held_startSignal (h : b.Held) (ev : EventPtr) : (startSignal b ev).Held := by
  unfold startSignal
  dsimp only
  split
  · have h' : ({ b with
        signalRunning := true
        signalCall := b.signalCall + 1
        signalNcalls := (b.events ev).evNcalls } : EventBase).Held :=
      h.congr rfl rfl rfl rfl ⟨rfl, rfl, rfl⟩ h.sound.eventTv h.sound.tvCache rfl ⟨rfl, rfl⟩
    exact h'.counters ev Event.evNcalls fun _ => some (b.signalCall + 1)
  · exact h.congr rfl rfl rfl rfl ⟨rfl, rfl, rfl⟩ h.sound.eventTv h.sound.tvCache rfl ⟨rfl, rfl⟩

theorem inCallback_startSignal (h : b.InCallback i count) (ev : EventPtr) :
    (startSignal b ev).InCallback i count := by
  unfold startSignal
  dsimp only
  split
  · exact h.congr rfl rfl fun ha => by
      have ha' : ({ b with
        signalRunning := true
        signalCall := b.signalCall + 1
        signalNcalls := (b.events ev).evNcalls } : EventBase).Above i := ha
      exact ha'.counters ev Event.evNcalls fun _ => some (b.signalCall + 1)
  · exact h.congr rfl rfl id

theorem inv_atDeferred {c : ℕ} (h : s.Inv) (hpc : s.pc = .deferred c count) :
    (s.atDeferred c count).Inv := by
  have hheld := h.held (by rw [hpc]; rintro ⟨⟩) (by rw [hpc]; exact id)
  unfold atDeferred
  split
  · exact inv_afterProcess hheld h.clock _
  · rename_i cb rest hlist
    have hqueued : s.base.queued cb = true :=
      (h.sound.deferred.2 cb).mp (by rw [hlist]; exact List.mem_cons_self)
    exact Inv.of_held ⟨h.sound.removeDeferred hqueued, hheld.running, hheld.told⟩ h.clock
      (by rintro ⟨⟩) trivial

theorem inv_atDeferredCb {c : ℕ} {cb : DeferredPtr} (h : s.Inv)
    (hpc : s.pc = .deferredCb c count cb) : (s.atDeferredCb c count).Inv := by
  have hheld := h.held (by rw [hpc]; rintro ⟨⟩) (by rw [hpc]; exact id)
  unfold atDeferredCb
  split
  · exact inv_afterProcess hheld h.clock _
  · split
    · exact inv_afterProcess hheld h.clock _
    · exact Inv.of_held hheld h.clock (by rintro ⟨⟩) trivial

/-- No event is active with the priority of a queue that is empty. -/
theorem above_succ (h : b.Sound) (hempty : b.activequeues i = []) (ha : b.Above i) :
    b.Above (i + 1) := by
  intro e he
  rcases (ha e he).eq_or_lt with heq | hlt
  · have hmem := ((h.wf.queues.active i).2 e).mpr ⟨he, heq.symm⟩
    rw [hempty] at hmem
    cases hmem
  · exact hlt

theorem inv_atProcess (h : s.Inv) (hpc : s.pc = .process i) : (s.atProcess i).Inv := by
  have hheld := h.held (by rw [hpc]; rintro ⟨⟩) (by rw [hpc]; exact id)
  obtain ⟨hcontinue, habove⟩ : s.base.eventContinue = false ∧ s.base.Above i := by
    have hplace := h.place
    rwa [hpc] at hplace
  unfold atProcess
  split
  · split
    · rename_i hempty
      exact Inv.of_held hheld h.clock (by rintro ⟨⟩)
        ⟨hcontinue, above_succ h.sound (List.isEmpty_iff.mp hempty) habove⟩
    · exact Inv.of_held (hheld.congr rfl rfl rfl rfl ⟨rfl, rfl, rfl⟩ hheld.sound.eventTv
        hheld.sound.tvCache rfl ⟨rfl, rfl⟩) h.clock (by rintro ⟨⟩) ⟨rfl, hcontinue, habove⟩
  · exact Inv.of_held hheld h.clock (by rintro ⟨⟩) trivial

/-! ### Running an event -/

/-- An event leaves its queue before its callback runs. -/
theorem dequeued (h : b.Held) (hactive : (b.events ev).evFlags.active = true) :
    ∃ b' f, b.takeActive ev = some b' ∧ b'.Held ∧ Does b b' (b.events.change ev f) ∧
      (f (b.events ev)).evFlags.active = false := by
  obtain ⟨n, hn, hwakes⟩ := h.sound.notify
  unfold takeActive
  cases hpersist : (b.events ev).evEvents.persist with
  | true =>
      have hin : (b.events ev).evFlags.has .active = true := hactive
      obtain ⟨q, hq, hwf, hplain, hqueues, -⟩ := h.sound.wf.queues.eventQueueRemove hin
      have d := h.sound.wf.does_queues hwf hplain hqueues (Event.kind_flag ..) rfl
      have hkept : ∀ {α : Type} (g : Event → α), (∀ e : Event, g (e.flag .active false) = g e) →
          ∀ x, g (b.events.change ev (Event.flag .active false) x) = g (b.events x) :=
        fun g hg x => Events.update_eq g (hg _) x
      refine ⟨_, _, (if_pos rfl).trans (onQueues_eq hq), h.keeps d.keeps (h.sound.does d
        (h.sound.timely.change ((h.sound.timely ev).flag (by decide) _)) fun x _ hw => ?_), d, rfl⟩
      exact ⟨(hkept (fun e => e.evFlags.inserted) (fun _ => rfl) x).trans hw.inserted,
        (hkept (fun e => e.evFlags.timeout) (fun _ => rfl) x).trans hw.untimed,
        (hkept Event.evIoTimeout (fun _ => rfl) x).trans hw.interval⟩
  | false =>
      obtain ⟨b', hrun, d, -⟩ := h.sound.wf.eventDelInternal true ev
      have hev : (b.events ev).evFlags.internal = false := by
        by_contra hinternal
        have heq := hn.symm.trans (h.sound.internal ev (by simpa using hinternal))
        obtain rfl := Option.some.inj heq
        rw [hwakes.events] at hpersist
        cases hpersist
      exact ⟨b', _, (if_neg Bool.false_ne_true).trans hrun,
        h.keeps d.keeps (h.sound.does_change d hev (h.sound.timely ev).unqueued), d, rfl⟩

theorem normal_runAt (h : b.Sound) {clock : Timeval} (hclock : clock.Normal)
    (hclosure : (b.events ev).evClosure = .persist)
    (hne : (b.events ev).evIoTimeout ≠ evutilTimerclear) : (b.runAt clock ev).Normal := by
  have hnow := h.gettime hclock
  have hinterval := (h.timely ev).interval hclosure
  have htimeout := (h.timely ev).again hclosure hne
  have hfirst : (evutilTimeradd (if (b.events ev).evRes.timeout then (b.events ev).evTimeout
      else b.gettime clock) (b.events ev).evIoTimeout).Normal := by
    split
    · exact htimeout.timeradd hinterval
    · exact hnow.timeradd hinterval
  unfold runAt
  dsimp only
  set first := evutilTimeradd (if (b.events ev).evRes.timeout then (b.events ev).evTimeout
    else b.gettime clock) (b.events ev).evIoTimeout
  split
  · exact hnow.timeradd hinterval
  · exact hfirst

/-- A persistent event with an interval is added again before its callback runs. -/
theorem persisted (h : b.Held) {clock : Timeval} (hclock : clock.Normal) (granted : Granted)
    (hclosure : (b.events ev).evClosure = .persist) :
    ∃ b', b.eventPersistClosure granted clock ev = some b' ∧ b'.Held ∧ Retains b b' ∧
      (b.Above i → b'.Above i) := by
  unfold eventPersistClosure
  dsimp only
  split
  · rename_i hsome
    have hne : (b.events ev).evIoTimeout ≠ evutilTimerclear := fun heq => by
      rw [heq] at hsome
      exact hsome.elim (fun hne => hne rfl) fun hne => hne rfl
    have hev : (b.events ev).evFlags.internal = false := by
      by_contra hinternal
      obtain ⟨n, hn, hwakes⟩ := h.sound.notify
      obtain rfl :=
        Option.some.inj (hn.symm.trans (h.sound.internal ev (by simpa using hinternal)))
      exact hne hwakes.interval
    have hat := normal_runAt h.sound hclock hclosure hne
    obtain ⟨b', r, hrun, hcases⟩ :=
      h.sound.wf.eventAddInternal granted clock true ev (some (b.runAt clock ev)) true
    refine ⟨b', by rw [hrun]; rfl, ?_⟩
    rcases hcases with ⟨-, d, hquiet⟩ | ⟨-, d, -⟩
    · exact ⟨h.keeps d.keeps (h.sound.does d h.sound.timely fun n _ hw =>
        ⟨hw.inserted, hw.untimed, hw.interval⟩), d.keeps, d.above hquiet.active⟩
    · refine ⟨h.keeps d.keeps (h.sound.does_change d hev
        (h.sound.timely_added hclock (fun t ht => ?_) true ev)), d.keeps,
        d.above_change active_added⟩
      rwa [← Option.some.inj ht]
  · exact ⟨b, rfl, h, Retains.refl b, id⟩

theorem inCallback_of_retains {b' : EventBase} (hk : Retains b b')
    (hpri : b.eventRunningPriority = i)
    (hcounted : 0 < i → 0 < count) (hcontinued : b.eventContinue = true → 0 < i)
    (habove : b'.eventContinue = true ∨ b'.Above i) : b'.InCallback i count := by
  refine ⟨hk.priority.trans hpri, hcounted, fun hc => (hk.continued hc).elim hcontinued fun hlt =>
    ?_, habove⟩
  rw [hpri] at hlt
  omega

theorem inv_atSingle (h : s.Inv) (hpc : s.pc = .single i count) (granted : Granted) :
    ∃ s', s.atSingle granted i count = some s' ∧ s'.Inv := by
  have hheld := h.held (by rw [hpc]; rintro ⟨⟩) (by rw [hpc]; exact id)
  obtain ⟨hpri, hcontinue, habove⟩ : s.base.eventRunningPriority = i ∧
      s.base.eventContinue = false ∧ s.base.Above i := by
    have hplace := h.place
    rwa [hpc] at hplace
  unfold atSingle
  split
  · rename_i hempty
    exact ⟨_, rfl, inv_afterSingle hheld h.clock fun _ =>
      ⟨hcontinue, above_succ h.sound hempty habove⟩⟩
  · rename_i ev rest hqueue
    obtain ⟨hactive, hevPri⟩ := ((h.sound.wf.queues.active i).2 ev).mp
      (by rw [hqueue]; exact List.mem_cons_self)
    obtain ⟨b₁, f, hrun, h₁, d, hf⟩ := dequeued hheld hactive
    have habove₁ : b₁.Above i := d.above_change (fun hnot => by rw [hf] at hnot; cases hnot) habove
    have hcounted : 0 < i → 0 < if (b₁.events ev).evFlags.internal then count else count + 1 := by
      intro hi
      split
      · rename_i hinternal
        obtain ⟨n, hn, hwakes⟩ := h₁.sound.notify
        obtain rfl := Option.some.inj (hn.symm.trans (h₁.sound.internal ev hinternal))
        have hkind : (b₁.events n).evPri = (s.base.events n).evPri :=
          congrArg Kind.evPri (d.kind n)
        have hzero := hwakes.pri
        omega
      · omega
    have hin₁ := inCallback_of_retains d.keeps hpri hcounted
      (fun hc => by rw [hcontinue] at hc; cases hc) (Or.inr habove₁)
    have h₂ : ({ b₁ with currentEvent := some ev } : EventBase).Held :=
      h₁.congr rfl rfl rfl rfl ⟨rfl, rfl, rfl⟩ h₁.sound.eventTv h₁.sound.tvCache rfl ⟨rfl, rfl⟩
    have hin₂ : ({ b₁ with currentEvent := some ev } : EventBase).InCallback i
        (if (b₁.events ev).evFlags.internal then count else count + 1) := hin₁.congr rfl rfl id
    simp only [hrun, bind, Option.bind]
    split
    · refine ⟨_, rfl, ?_⟩
      exact Inv.of_held (held_startSignal h₂ ev) h.clock (by rintro ⟨⟩)
        (inCallback_startSignal hin₂ ev)
    · rename_i hclosure
      obtain ⟨b₃, hrun₃, h₃, hk₃, habove₃⟩ := persisted (i := i) h₂ h.clock granted hclosure
      rw [hrun₃]
      exact ⟨_, rfl, Inv.of_held h₃ h.clock (by rintro ⟨⟩) (inCallback_of_retains hk₃ hin₂.priority
        hcounted hin₂.continued (Or.inr (habove₃ habove₁)))⟩
    · exact ⟨_, rfl, Inv.of_held h₂ h.clock (by rintro ⟨⟩) hin₂⟩

/-! ### Waiting -/

theorem sound_movedBack (h : b.Sound) {clock off : Timeval} (hclock : clock.Normal)
    (hoff : off.Normal)
    (hwf : ({ b with
      events := fun e => (b.events e).movedBack off
      eventTv := b.gettime clock } : EventBase).Wf) :
    ({ b with
      events := fun e => (b.events e).movedBack off
      eventTv := b.gettime clock } : EventBase).Sound := by
  have hkept : ∀ e : Event, (e.movedBack off).evPri = e.evPri ∧
      (e.movedBack off).evFlags = e.evFlags := fun e => by
    unfold Event.movedBack
    split <;> exact ⟨rfl, rfl⟩
  obtain ⟨n, hn, hwakes⟩ := h.notify
  refine ⟨hwf, fun e => (h.timely e).movedBack hoff, fun e => ?_, ⟨n, hn, ?_⟩, fun e he => ?_,
    h.deferred, h.activeCount, h.gettime hclock, h.tvCache⟩
  · exact (hkept _).1.trans_lt (h.pri e)
  · have hsame : (b.events n).movedBack off = b.events n :=
      if_neg (by rw [hwakes.untimed]; exact Bool.false_ne_true)
    change ((b.events n).movedBack off).Wakes
    rwa [hsame]
  · refine h.internal e ?_
    rw [← (hkept (b.events e)).2]
    exact he

theorem waited (h : b.Sound) {clock : Timeval} (hclock : clock.Normal) (nonblock : Bool) :
    ∃ tv, b.waitFor clock nonblock = some tv ∧ (tv = some evutilTimerclear ∨
      b.nActiveCallbacks = 0 ∧ WaitsRight b.events (b.gettime clock) tv) := by
  unfold waitFor
  split
  · rename_i hidle
    rw [Bool.and_eq_true, decide_eq_true_eq] at hidle
    obtain ⟨tv, htv, hright⟩ := h.wf.timeoutNext h.timely (h.gettime hclock)
    exact ⟨tv, htv, Or.inr ⟨hidle.1, hright⟩⟩
  · exact ⟨_, rfl, Or.inl rfl⟩

theorem inv_atTop (h : s.Inv) (hpc : s.pc = .top) : ∃ s', s.atTop = some s' ∧ s'.Inv := by
  have hheld := h.held (by rw [hpc]; rintro ⟨⟩) (by rw [hpc]; exact id)
  have hpri : s.base.eventRunningPriority ≤ 0 := by
    have hplace := h.place
    rwa [hpc] at hplace
  have h₀ : ({ s.base with eventContinue := false } : EventBase).Held :=
    hheld.congr rfl rfl rfl rfl ⟨rfl, rfl, rfl⟩ hheld.sound.eventTv hheld.sound.tvCache rfl
      ⟨rfl, rfl⟩
  unfold atTop
  dsimp only
  split
  · exact ⟨_, rfl, inv_leave h₀ h.clock hpri 0⟩
  · rename_i hgoes
    obtain ⟨off, hoff, -, hrun, hwf⟩ :=
      h₀.sound.wf.timeoutCorrect h₀.sound.timely (h₀.sound.gettime h.clock) h₀.sound.eventTv
    have hsound := sound_movedBack h₀.sound h.clock hoff hwf
    rw [hrun]
    set b₁ : EventBase := { ({ s.base with eventContinue := false } : EventBase) with
      events := fun e => (s.base.events e).movedBack off
      eventTv := ({ s.base with eventContinue := false } : EventBase).gettime s.clock } with hb₁
    have h₁ : b₁.Held := ⟨hsound, h₀.running, h₀.told⟩
    obtain ⟨tv, htv, hright⟩ := waited hsound h.clock s.flags.nonblock
    simp only [htv, bind, Option.bind, pure]
    split
    · exact ⟨_, rfl, inv_leave h₁ h.clock hpri 1⟩
    · refine ⟨_, rfl, ?_⟩
      have h₂ : ({ b₁ with eventTv := b₁.gettime s.clock } : EventBase).clearTimeCache.Held :=
        h₁.congr rfl rfl rfl rfl ⟨rfl, rfl, rfl⟩ (hsound.gettime h.clock) hsound.tvCache rfl
          ⟨rfl, rfl⟩
      refine Inv.of_held h₂ h.clock (by rintro ⟨⟩) ⟨hpri, rfl, fun d fd hfd => ?_, fun n hn => ?_,
        hright.imp_right fun hidle => Or.inr ?_⟩
      · refine h₂.sound.wf.isSome_of_interest (d := d) ((h₂.sound.wf.has_iff d fd).mp ?_)
        cases d <;> exact hfd
      · obtain ⟨n', hn', hwakes⟩ := h₂.sound.notify
        obtain rfl := Option.some.inj (hn.symm.trans hn')
        refine (h₂.sound.wf.has_iff true _).mpr (h₂.sound.wf.mem_interest_iff.mpr
          ⟨hwakes.nonneg, n, hwakes.inserted, rfl, ?_⟩)
        rw [hwakes.events]
        rfl
      · obtain ⟨hactive, hdeferred⟩ := EventBase.Wf.not_active hsound hidle.1
        refine ⟨hactive, hdeferred, ?_, fun d fd hfd => ?_, hidle.2⟩
        · rw [Bool.or_eq_true, not_or] at hgoes
          exact Bool.eq_false_iff.mpr hgoes.2
        · have hhas := (h₂.sound.wf.has_iff d fd).mpr hfd
          cases d <;> exact hhas

/-! ### What `select` reports -/

/-- The events of `P` have become active, and nothing else has changed that counts. -/
structure Raised (b b' : EventBase) (P : EventPtr → Prop) : Prop where
  active : ∀ e, (b'.events e).evFlags.active = true ↔ (b.events e).evFlags.active = true ∨ P e
  inserted : ∀ e, (b'.events e).evFlags.inserted = (b.events e).evFlags.inserted
  due : ∀ e now, (b'.events e).due now = (b.events e).due now
  timeout : ∀ e, (b'.events e).evFlags.timeout = (b.events e).evFlags.timeout
  kind : SameKind b.events b'.events

theorem Raised.refl (b : EventBase) : Raised b b fun _ => False :=
  ⟨fun _ => (or_false _).symm.to_iff, fun _ => rfl, fun _ _ => rfl, fun _ => rfl,
    SameKind.refl _⟩

theorem Raised.trans {b' b'' : EventBase} {P Q R : EventPtr → Prop} (h : Raised b b' P)
    (h' : Raised b' b'' Q) (hR : ∀ e, R e ↔ P e ∨ Q e) : Raised b b'' R :=
  ⟨fun e => by rw [h'.active, h.active, hR, or_assoc],
    fun e => (h'.inserted e).trans (h.inserted e), fun e now => (h'.due e now).trans (h.due e now),
    fun e => (h'.timeout e).trans (h.timeout e), h.kind.trans h'.kind⟩

theorem raised_of_activated {b' : EventBase} {res : What} {ncalls : ℕ}
    (d : Does b b' (b.events.change ev (Event.activated res ncalls))) :
    Raised b b' fun e => e = ev := by
  have hframe : ∀ e : Event, (e.activated res ncalls).evFlags.active = true ∧
      (e.activated res ncalls).evFlags.inserted = e.evFlags.inserted ∧
      (e.activated res ncalls).evFlags.timeout = e.evFlags.timeout ∧
      (e.activated res ncalls).evTimeout = e.evTimeout := fun e => by
    unfold Event.activated
    split
    · rename_i hactive
      exact ⟨hactive, rfl, rfl, rfl⟩
    · exact ⟨rfl, rfl, rfl, rfl⟩
  have hkept : ∀ {α : Type} (g : Event → α), (∀ e : Event, g (e.activated res ncalls) = g e) →
      ∀ e, g (b.events.change ev (Event.activated res ncalls) e) = g (b.events e) :=
    fun g hg e => Events.update_eq g (hg _) e
  have hflags := Events.evFlags_of_plain d.plain
  have htimeout : ∀ e, (b'.events e).evFlags.timeout = (b.events e).evFlags.timeout := fun e =>
    (congrArg EvFlags.timeout (hflags e)).trans
      (hkept (fun e => e.evFlags.timeout) (fun e => (hframe e).2.2.1) e)
  refine ⟨fun e => ?_, fun e => (congrArg EvFlags.inserted (hflags e)).trans
    (hkept (fun e => e.evFlags.inserted) (fun e => (hframe e).2.1) e), fun e now => ?_, htimeout,
    d.kind⟩
  · rw [hflags]
    by_cases he : e = ev
    · rw [he, Events.change_self]
      exact iff_of_true (hframe _).1 (Or.inr rfl)
    · rw [Events.change_of_ne _ _ he]
      exact ⟨Or.inl, fun hor => hor.resolve_right he⟩
  · rw [Event.due, Event.due, htimeout, Events.evTimeout_of_plain d.plain,
      hkept Event.evTimeout (fun e => (hframe e).2.2.2)]

theorem activated_all (events : What) : ∀ (evs : List EventPtr) {b : EventBase}, b.Held →
    ∃ b', b.activeAll events evs = some b' ∧ b'.Held ∧ Retains b b' ∧
      Raised b b' fun e => e ∈ evs ∧ (b.events e).evEvents.and events ≠ {}
  | [], b, h => ⟨b, rfl, h, Retains.refl b, (Raised.refl b).trans (Raised.refl b) fun e => by simp⟩
  | ev :: evs, b, h => by
      rw [activeAll]
      split
      · rename_i hne
        obtain ⟨b₁, hrun, hsound, d, -⟩ := h.sound.eventActiveNolock true ev
          ((b.events ev).evEvents.and events) 1
        obtain ⟨b', hrun', h', hk', hr'⟩ := activated_all events evs (h.keeps d.keeps hsound)
        have hkind : ∀ e, (b₁.events e).evEvents = (b.events e).evEvents := fun e =>
          congrArg Kind.evEvents (d.kind e)
        refine ⟨b', by simp only [hrun, hrun', bind, Option.bind], h', d.keeps.trans hk',
          (raised_of_activated d).trans hr' fun e => ?_⟩
        rw [hkind, List.mem_cons]
        refine ⟨fun ⟨hmem, hwaits⟩ => hmem.imp_right fun hmem => ⟨hmem, hwaits⟩, ?_⟩
        rintro (rfl | ⟨hmem, hwaits⟩)
        · exact ⟨Or.inl rfl, hne⟩
        · exact ⟨Or.inr hmem, hwaits⟩
      · rename_i heq
        obtain ⟨b', hrun', h', hk', hr'⟩ := activated_all events evs h
        refine ⟨b', hrun', h', hk', (Raised.refl b).trans hr' fun e => ?_⟩
        rw [List.mem_cons, false_or]
        refine and_congr_left fun hwaits => ⟨fun hmem => hmem.resolve_left ?_, Or.inr⟩
        rintro rfl
        exact heq hwaits

/-- The event waits for the socket, in the set that `select` has reported it in. -/
def Reported (m : Events) (x : Socket × Bool) (e : EventPtr) : Prop :=
  (m e).evFlags.inserted = true ∧ (m e).evFd = x.1 ∧
    (if x.2 then (m e).evEvents.read else (m e).evEvents.write) = true

theorem and_readyEvents (w : What) (read : Bool) :
    w.and (readyEvents read) ≠ {} ↔ (if read then w.read else w.write) = true := by
  obtain ⟨timeout, r, w, signal, persist⟩ := w
  cases read <;> cases r <;> cases w <;> simp [What.and, readyEvents]

/-- The events of the entry of a socket that wait for what has been reported. -/
theorem reported_iff (h : b.Wf) {fd : Socket} {ctx : EvmapIo} (hctx : b.ioMap.io fd = some ctx)
    (read : Bool) (e : EventPtr) : Reported b.events (fd, read) e ↔
      e ∈ ctx.events ∧ (b.events e).evEvents.and (readyEvents read) ≠ {} := by
  have hlists : b.ioMap.lists fd = some (ctx.events, ctx.nread, ctx.nwrite) := by
    rw [IoMap.lists, hctx]
    rfl
  rw [(h.io.booked _ _ _ _ hlists).mem_iff, and_readyEvents]
  constructor
  · rintro ⟨hin, hfd, hwaits⟩
    refine ⟨⟨⟨hin, ?_⟩, hfd⟩, hwaits⟩
    rw [Bool.or_eq_true]
    cases read with
    | true => exact Or.inl hwaits
    | false => exact Or.inr hwaits
  · rintro ⟨⟨⟨hin, -⟩, hfd⟩, hwaits⟩
    exact ⟨hin, hfd, hwaits⟩

theorem Raised.reported {b' : EventBase} {P : EventPtr → Prop} (h : Raised b b' P)
    (x : Socket × Bool) (e : EventPtr) : Reported b'.events x e ↔ Reported b.events x e := by
  have hfd : (b'.events e).evFd = (b.events e).evFd := congrArg Kind.evFd (h.kind e)
  have hevents : (b'.events e).evEvents = (b.events e).evEvents :=
    congrArg Kind.evEvents (h.kind e)
  rw [Reported, Reported, h.inserted, hfd, hevents]

theorem activated_sockets (ready : List (Socket × Bool)) {b : EventBase} (h : b.Held)
    (hready : ∀ x ∈ ready, (b.ioMap.io x.1).isSome) :
    ∃ b', b.activeSockets ready = some b' ∧ b'.Held ∧ Retains b b' ∧
      Raised b b' fun e => ∃ x ∈ ready, Reported b.events x e := by
  induction ready generalizing b with
  | nil =>
      refine ⟨b, rfl, h, Retains.refl b, (Raised.refl b).trans (Raised.refl b) fun e => ?_⟩
      simp
  | cons x ready ih =>
      obtain ⟨fd, read⟩ := x
      obtain ⟨ctx, hctx⟩ := Option.isSome_iff_exists.mp (hready _ List.mem_cons_self)
      obtain ⟨b₁, hrun, h₁, hk₁, hr₁⟩ := activated_all (readyEvents read) ctx.events h
      obtain ⟨b', hrun', h', hk', hr'⟩ := ih h₁ fun x hx =>
        hk₁.entries _ (hready x (List.mem_cons_of_mem _ hx))
      refine ⟨b', ?_, h', hk₁.trans hk', hr₁.trans hr' fun e => ?_⟩
      · simp only [activeSockets, evmapIoActive, hctx, hrun, hrun', bind, Option.bind]
      · simp only [List.exists_mem_cons_iff, hr₁.reported, reported_iff h.sound.wf hctx]

/-- The events whose time has come. -/
theorem timed_out (h : b.Held) (clock : Timeval) :
    ∃ b', b.timeoutProcess clock = some b' ∧ b'.Held ∧ Retains b b' ∧ ∀ e,
      ((b'.events e).evFlags.active = true ↔
        (b.events e).evFlags.active = true ∨ (b.events e).due (b.gettime clock) = true) ∧
      (b'.events e).due (b.gettime clock) = false := by
  obtain ⟨b', hrun, d⟩ := h.sound.wf.timeoutProcess h.sound.pri
  refine ⟨b', hrun, h.keeps d.keeps (h.sound.does d
    (fun e => (h.sound.timely e).expired _) fun n _ hw => ?_), d.keeps, fun e => ⟨?_, ?_⟩⟩
  · have hsame : (b.events n).expired (b.gettime clock) = b.events n := by
      refine Event.expired_of_not_due ?_
      rw [Event.due, hw.untimed]
      rfl
    rw [hsame]
    exact ⟨hw.inserted, hw.untimed, hw.interval⟩
  · rw [Events.evFlags_of_plain d.plain]
    cases hdue : (b.events e).due (b.gettime clock) with
    | true =>
        rw [Event.expired_of_due hdue]
        exact iff_of_true rfl (Or.inr rfl)
    | false =>
        rw [Event.expired_of_not_due hdue]
        exact ⟨Or.inl, fun hor => hor.resolve_right Bool.false_ne_true⟩
  · rw [Event.due, Events.evFlags_of_plain d.plain, Events.evTimeout_of_plain d.plain]
    exact Event.due_expired ..

theorem gettime_updateTimeCache (b : EventBase) (clock : Timeval) :
    (b.updateTimeCache clock).gettime clock = clock := ite_self ..

/-- What has come up while the thread was in `select`. -/
theorem selected (h : s.Inv) {ready : List (Socket × Bool)}
    (hready : s.Enabled (.select ready)) :
    ∃ b, s.base.afterSelect s.clock ready = some b ∧ b.Held ∧ Retains s.base b ∧ ∀ e,
      ((b.events e).evFlags.active = true ↔ (s.base.events e).evFlags.active = true ∨
        (∃ x ∈ ready, Reported s.base.events x e) ∨ (s.base.events e).due s.clock = true) ∧
      (b.events e).due s.clock = false := by
  obtain ⟨tv, r, w, hpc, hsets⟩ := Pc.Selects.exists hready
  have hheld := h.held (by rw [hpc]; rintro ⟨⟩) (by rw [hpc]; exact id)
  obtain ⟨-, -, hentries, -⟩ := (by
    have hplace := h.place
    rwa [hpc] at hplace : (Pc.dispatch tv r w).Inv s.base)
  obtain ⟨b₁, hrun₁, h₁, hk₁, hr₁⟩ := activated_sockets ready hheld fun x hx =>
    hentries x.2 x.1 (hsets x hx)
  have h₂ : (b₁.updateTimeCache s.clock).Held :=
    h₁.congr rfl rfl rfl rfl ⟨rfl, rfl, rfl⟩ h₁.sound.eventTv h.clock rfl ⟨rfl, rfl⟩
  have hk₂ : Retains b₁ (b₁.updateTimeCache s.clock) :=
    ⟨rfl, rfl, rfl, Or.inl ⟨rfl, rfl⟩, fun _ => id, Or.inl⟩
  obtain ⟨b₃, hrun₃, h₃, hk₃, hexpired⟩ := timed_out h₂ s.clock
  refine ⟨b₃, ?_, h₃, (hk₁.trans hk₂).trans hk₃, fun e => ?_⟩
  · simp only [afterSelect, hrun₁, hrun₃, bind, Option.bind]
  · obtain ⟨hactive, hdue⟩ := hexpired e
    rw [gettime_updateTimeCache] at hactive hdue
    refine ⟨hactive.trans ?_, hdue⟩
    change (b₁.events e).evFlags.active = true ∨ (b₁.events e).due s.clock = true ↔ _
    rw [hr₁.active, hr₁.due, or_assoc]

theorem inv_atSelect (h : s.Inv) {ready : List (Socket × Bool)}
    (hready : s.Enabled (.select ready)) : ∃ s', s.atSelect ready = some s' ∧ s'.Inv := by
  obtain ⟨b, hrun, hheld, hk, -⟩ := selected h hready
  obtain ⟨tv, r, w, hpc, -⟩ := Pc.Selects.exists hready
  obtain ⟨hpri, hcontinue, -⟩ := (by
    have hplace := h.place
    rwa [hpc] at hplace : (Pc.dispatch tv r w).Inv s.base)
  have hpri' : b.eventRunningPriority ≤ 0 := hk.priority.trans_le hpri
  have hcontinue' : b.eventContinue = false := by
    by_contra hc
    rcases hk.continued (by simpa using hc) with hc₀ | hlt
    · rw [hcontinue] at hc₀
      cases hc₀
    · omega
  unfold atSelect
  simp only [hrun, bind, Option.bind, pure]
  split
  · exact ⟨_, rfl, Inv.of_held hheld h.clock (by rintro ⟨⟩)
      ⟨hcontinue', fun e _ => Nat.zero_le _⟩⟩
  · split
    · exact ⟨_, rfl, inv_leave hheld h.clock hpri' 0⟩
    · exact ⟨_, rfl, Inv.of_held hheld h.clock (by rintro ⟨⟩) hpri'⟩

/-! ### Calls -/

/-- A call by another thread, or by the callback that is running. -/
theorem inv_call (h : s.Inv) {inThread : Bool} {c : Call}
    (hcall : s.Enabled (.call inThread c)) :
    ∃ s', s.step (.call inThread c) = some s' ∧ s'.Inv := by
  obtain ⟨hwho, hallowed⟩ := hcall
  have hsucceeds : s.base.Succeeds s.clock inThread c := h.sound.call h.clock hallowed
  obtain ⟨b', hrun, hsound, hcalled⟩ := hsucceeds
  refine ⟨{ s with base := b' }, by rw [step, hrun]; rfl, hsound, h.clock, ?_, fun hp => ?_, ?_⟩
  · rw [hcalled.running]
    exact h.running
  · rcases hcalled.signals with ⟨hpending, hbytes⟩ | ⟨-, -, -, hbytes⟩
    · rw [hbytes]
      exact h.told (hpending ▸ hp)
    · exact Or.inl ((Nat.succ_pos _).trans_eq hbytes.symm)
  · have hplace := h.place
    have hrunning := h.running.mpr
    have hin : ∀ {i count : ℕ}, s.base.InCallback i count → b'.InCallback i count := fun hin =>
      inCallback_of_retains hcalled.keeps hin.priority hin.counted hin.continued
        (hcalled.above _ hin.priority hin.above)
    change s.pc.Inv b'
    cases hpc : s.pc with
    | out =>
        rw [hpc] at hplace
        exact hcalled.priority.trans_le hplace
    | callback i count ev closure callback | drained i count ev closure | signal i count ev =>
        rw [hpc] at hplace
        exact hin hplace
    | deferred c count | deferredCb c count cb => exact trivial
    | top | process i | single i count =>
        rw [hpc] at hwho
        cases inThread <;> cases hwho
    | dispatch tv r w =>
        rw [hpc] at hwho hplace hrunning
        -- the thread of the loop itself is in `select`
        cases inThread with
        | true => cases hwho
        | false =>
            obtain ⟨hpri, hcontinue, hentries, hnotify, hwaits⟩ := hplace
            refine ⟨hcalled.priority.trans_le hpri, ?_, fun d fd hfd =>
              hcalled.entries fd (hentries d fd hfd), fun n hn => ?_, ?_⟩
            · by_contra hc
              rcases hcalled.continued (by simpa using hc) with hc₀ | hlt
              · rw [hcontinue] at hc₀
                cases hc₀
              · omega
            · have hn₀ := hcalled.thNotify.symm.trans hn
              rw [hcalled.wakes n hn₀]
              exact hnotify n hn₀
            · rcases hwaits with hclear | hpending | hrests
              · exact Or.inl hclear
              · exact Or.inr (Or.inl (hcalled.signals.pending hpending))
              · rcases hcalled.told with hstill | htold
                · exact Or.inr (Or.inr (hrests.of_still hstill hcalled.eventTv h.sound.timely
                    hsound.timely))
                · exact Or.inr (Or.inl (htold rfl (hrunning (by rintro ⟨⟩))))

theorem inv_enter (h : s.Inv) (flags : LoopFlags) : (s.enter flags).Inv := by
  unfold enter
  split
  · exact ⟨h.sound, h.clock, h.running, h.told, h.place⟩
  · rename_i hnot
    have hpc : s.pc = .out := by
      by_contra hne
      exact hnot (h.running.mpr hne)
    have hpri : s.base.eventRunningPriority ≤ 0 := by
      have hplace := h.place
      rwa [hpc] at hplace
    have hs := h.sound
    exact ⟨⟨⟨hs.wf.queues, hs.wf.io, hs.wf.signals⟩, hs.timely, hs.pri, hs.notify, hs.internal,
      hs.deferred, hs.activeCount, hs.eventTv, hs.tvCache⟩, h.clock,
      ⟨fun _ => by rintro ⟨⟩, fun _ => rfl⟩,
      fun hp => Or.inl ((h.told hp).resolve_right (by rw [hpc]; exact id)), hpri⟩

/-! ### All steps -/

/-- **The loop.** Whatever happens next, no assertion fails, no index is out of bounds and no
entry is missing, and the invariant holds afterwards. -/
theorem inv_step (h : s.Inv) {l : Label} (hl : s.Enabled l) :
    ∃ s', s.step l = some s' ∧ s'.Inv := by
  cases l with
  | call inThread c => exact inv_call h hl
  | setClock clock => exact ⟨_, rfl, h.sound, hl, h.running, h.told, h.place⟩
  | loop flags => exact ⟨_, rfl, inv_enter h flags⟩
  | select ready => exact inv_atSelect h hl
  | selectFails =>
      obtain ⟨tv, r, w, hpc, -⟩ := Pc.Selects.exists hl
      have hplace := h.place
      rw [hpc] at hplace
      exact ⟨_, rfl, inv_leave (h.held (by rw [hpc]; rintro ⟨⟩) (by rw [hpc]; exact id)) h.clock
        hplace.1 (-1)⟩
  | advance granted =>
      cases hpc : s.pc with
      | out | dispatch tv r w => exact ⟨s, by rw [step, advance, hpc], h⟩
      | top =>
          obtain ⟨s', hrun, h'⟩ := inv_atTop h hpc
          exact ⟨s', by rw [step, advance, hpc]; exact hrun, h'⟩
      | single i count =>
          obtain ⟨s', hrun, h'⟩ := inv_atSingle h hpc granted
          exact ⟨s', by rw [step, advance, hpc]; exact hrun, h'⟩
      | process i => exact ⟨_, by rw [step, advance, hpc], inv_atProcess h hpc⟩
      | callback i count ev closure callback =>
          exact ⟨_, by rw [step, advance, hpc], inv_atCallback h hpc⟩
      | drained i count ev closure => exact ⟨_, by rw [step, advance, hpc], inv_atDrained h hpc⟩
      | signal i count ev => exact ⟨_, by rw [step, advance, hpc], inv_atSignal h hpc⟩
      | deferred c count => exact ⟨_, by rw [step, advance, hpc], inv_atDeferred h hpc⟩
      | deferredCb c count cb => exact ⟨_, by rw [step, advance, hpc], inv_atDeferredCb h hpc⟩

/-- The invariant holds in every state that is reached. -/
theorem inv_of_reach {s₀ : Loop} (h₀ : s₀.Inv) (h : Reach step Enabled s₀ s) : s.Inv := by
  refine h.invariant Inv h₀ fun s₁ s₂ l h₁ hl hs => ?_
  obtain ⟨s', hrun, h'⟩ := inv_step h₁ hl
  rwa [← Option.some.inj (hrun.symm.trans hs)]

end Loop

end EventLoop

end IocpEcho
