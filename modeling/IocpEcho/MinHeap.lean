import IocpEcho.Heaps
import Mathlib.Data.Prod.Lex

/-!
# The Heap of the Timeouts

libevent keeps the events that wait for a time in a binary heap of pointers, ordered by
`ev_timeout`; every event carries its index in the heap, so that it can be deleted before its
time has come. This module has `struct timeval` with its operations, what the event loop reads
of `struct event`, and `minheap-internal.h`.

Every access to the array of pointers is checked against the `a` slots that have been
allocated: a function is `none` when the source reads or writes outside of the block.

## Main results

* `minHeapShiftUp_eq`, `minHeapShiftDown_eq`: the two sifts stay in the block, and are those of
  the library on the pointers and the indices the events carry.
* `MinHeap.Wf.push`, `MinHeap.Wf.erase`, `MinHeap.Wf.pop`: the operations keep the heap well
  formed, and do to the set of its events what their names say.
* `MinHeap.Wf.top`: the top is one of the events that wait for the earliest time.
-/

namespace IocpEcho

namespace EventLoop

open Heaps

/-! ### Times -/

/-- `struct timeval`. -/
structure Timeval where
  tvSec : ℤ
  tvUsec : ℤ
  deriving DecidableEq

/-- `evutil_timercmp`, with the operator to compare by. -/
def evutilTimercmp (tvp uvp : Timeval) (cmp : ℤ → ℤ → Bool) : Bool :=
  if tvp.tvSec = uvp.tvSec then cmp tvp.tvUsec uvp.tvUsec else cmp tvp.tvSec uvp.tvSec

/-- `evutil_timeradd`. -/
def evutilTimeradd (tvp uvp : Timeval) : Timeval :=
  if tvp.tvUsec + uvp.tvUsec ≥ 1000000 then
    ⟨tvp.tvSec + uvp.tvSec + 1, tvp.tvUsec + uvp.tvUsec - 1000000⟩
  else ⟨tvp.tvSec + uvp.tvSec, tvp.tvUsec + uvp.tvUsec⟩

/-- `evutil_timersub`. -/
def evutilTimersub (tvp uvp : Timeval) : Timeval :=
  if tvp.tvUsec - uvp.tvUsec < 0 then
    ⟨tvp.tvSec - uvp.tvSec - 1, tvp.tvUsec - uvp.tvUsec + 1000000⟩
  else ⟨tvp.tvSec - uvp.tvSec, tvp.tvUsec - uvp.tvUsec⟩

/-- `evutil_timerclear`. -/
def evutilTimerclear : Timeval := ⟨0, 0⟩

/-- A time as seconds and then microseconds, in the order `evutil_timercmp` compares them. -/
def Timeval.key (tv : Timeval) : ℤ ×ₗ ℤ := toLex (tv.tvSec, tv.tvUsec)

/-- The microseconds of a time. -/
def Timeval.usec (tv : Timeval) : ℤ := tv.tvSec * 1000000 + tv.tvUsec

/-- The microseconds are those of a fraction of a second. -/
def Timeval.Normal (tv : Timeval) : Prop := 0 ≤ tv.tvUsec ∧ tv.tvUsec < 1000000

instance (tv : Timeval) : Decidable tv.Normal := inferInstanceAs (Decidable (_ ∧ _))

theorem Timeval.key_lt {s t : Timeval} :
    s.key < t.key ↔ s.tvSec < t.tvSec ∨ s.tvSec = t.tvSec ∧ s.tvUsec < t.tvUsec :=
  Prod.Lex.toLex_lt_toLex ..

theorem evutilTimercmp_gt {s t : Timeval} :
    evutilTimercmp s t (fun a b => decide (a > b)) = true ↔ t.key < s.key := by
  rw [evutilTimercmp, Timeval.key_lt]
  split <;> simp <;> omega

/-- Times that are normal are in the order of their microseconds. -/
theorem Timeval.Normal.key_lt {s t : Timeval} (hs : s.Normal) (ht : t.Normal) :
    s.key < t.key ↔ s.usec < t.usec := by
  obtain ⟨hs0, hs1⟩ := hs
  obtain ⟨ht0, ht1⟩ := ht
  rw [Timeval.key_lt, Timeval.usec, Timeval.usec]
  omega

theorem Timeval.Normal.key_le {s t : Timeval} (hs : s.Normal) (ht : t.Normal) :
    s.key ≤ t.key ↔ s.usec ≤ t.usec := by
  rw [← not_lt, ← not_lt, ht.key_lt hs]

@[simp] theorem usec_evutilTimeradd (s t : Timeval) :
    (evutilTimeradd s t).usec = s.usec + t.usec := by
  unfold evutilTimeradd Timeval.usec
  split <;> dsimp only <;> omega

@[simp] theorem usec_evutilTimersub (s t : Timeval) :
    (evutilTimersub s t).usec = s.usec - t.usec := by
  unfold evutilTimersub Timeval.usec
  split <;> dsimp only <;> omega

theorem Timeval.Normal.timeradd {s t : Timeval} (hs : s.Normal) (ht : t.Normal) :
    (evutilTimeradd s t).Normal := by
  unfold Timeval.Normal evutilTimeradd at *
  split <;> dsimp only <;> omega

theorem Timeval.Normal.timersub {s t : Timeval} (hs : s.Normal) (ht : t.Normal) :
    (evutilTimersub s t).Normal := by
  unfold Timeval.Normal evutilTimersub at *
  split <;> dsimp only <;> omega

/-! ### Events -/

/-- The bits of `ev_events` and `ev_res`: `EV_TIMEOUT`, `EV_READ`, `EV_WRITE`, `EV_SIGNAL`,
`EV_PERSIST`. -/
structure What where
  timeout : Bool := false
  read : Bool := false
  write : Bool := false
  signal : Bool := false
  persist : Bool := false
  deriving DecidableEq

/-- The bits of `ev_flags`: `EVLIST_TIMEOUT`, `EVLIST_INSERTED`, `EVLIST_ACTIVE`,
`EVLIST_INTERNAL`. -/
structure EvFlags where
  timeout : Bool := false
  inserted : Bool := false
  active : Bool := false
  internal : Bool := false
  deriving DecidableEq

/-- `ev_closure`. -/
inductive Closure
  | none
  | signal
  | persist
  deriving DecidableEq

/-- The callbacks of libevent itself that the event loop runs, and those of its user:
`event_once_cb` with `event_loopexit_cb`, and `evthread_notify_drain_default`. -/
inductive Callback
  | user
  | eventLoopexit
  | notifyDrain
  deriving DecidableEq

/-- What the event loop reads of `struct event`. `evPncalls` says in which call of
`event_signal_closure` the counter lies that the source's `ev_pncalls` points to. -/
structure Event where
  minHeapIdx : ℤ
  evFd : ℤ
  evEvents : What
  evRes : What
  evFlags : EvFlags
  evPri : ℕ
  evClosure : Closure
  evTimeout : Timeval
  evIoTimeout : Timeval
  evNcalls : ℕ
  evPncalls : Option ℕ
  evCallback : Callback
  deriving DecidableEq

/-- The address of a `struct event`. -/
abbrev EventPtr := ℕ

/-- The events of the program, by their address. -/
abbrev Events := EventPtr → Event

/-! ### `minheap-internal.h` -/

/-- `min_heap_t`: the pointers, how many there are, and how many slots have been allocated. -/
structure MinHeap where
  p : ℕ → EventPtr
  n : ℕ
  a : ℕ

/-- `min_heap_elem_greater`. -/
def minHeapElemGreater (m : Events) (a b : EventPtr) : Bool :=
  evutilTimercmp (m a).evTimeout (m b).evTimeout fun x y => decide (x > y)

/-- `s->p[i]`. -/
def MinHeap.slot (s : MinHeap) (i : ℕ) : Option EventPtr := if i < s.a then some (s.p i) else none

/-- `s->p[s->n - 1]`. -/
def MinHeap.last (s : MinHeap) : Option EventPtr := if s.n ≠ 0 then s.slot (s.n - 1) else none

/-- `(s->p[i] = e)->ev_timeout_pos.min_heap_idx = i`. -/
def MinHeap.store (s : MinHeap) (m : Events) (i : ℕ) (e : EventPtr) : Option (MinHeap × Events) :=
  if i < s.a then
    some ({ s with p := Function.update s.p i e },
      Function.update m e { m e with minHeapIdx := i })
  else none

/-- `min_heap_ctor`. -/
def minHeapCtor (p : ℕ → EventPtr) : MinHeap := ⟨p, 0, 0⟩

/-- `min_heap_top`. -/
def minHeapTop (s : MinHeap) : Option EventPtr := if s.n ≠ 0 then some (s.p 0) else none

/-- `min_heap_elt_is_top`. -/
def minHeapEltIsTop (m : Events) (e : EventPtr) : Bool := (m e).minHeapIdx == 0

/-- `min_heap_shift_up_`. The hole is at most `fuel` rounds from the root. -/
def minHeapShiftUp : ℕ → MinHeap → Events → ℕ → EventPtr → Option (MinHeap × Events)
  | 0, s, m, holeIndex, e => s.store m holeIndex e
  | fuel + 1, s, m, holeIndex, e =>
      if holeIndex = 0 then s.store m holeIndex e
      else do
        let q ← s.slot ((holeIndex - 1) / 2)
        if minHeapElemGreater m q e then
          let r ← s.store m holeIndex q
          minHeapShiftUp fuel r.1 r.2 ((holeIndex - 1) / 2) e
        else s.store m holeIndex e

/-- `min_child -= min_child == s->n || min_heap_elem_greater(s->p[min_child],
s->p[min_child - 1])`. -/
def minChildOf (s : MinHeap) (m : Events) (minChild : ℕ) : Option ℕ :=
  if minChild = s.n then some (minChild - 1)
  else do
    let right ← s.slot minChild
    let left ← s.slot (minChild - 1)
    pure (if minHeapElemGreater m right left then minChild - 1 else minChild)

/-- `min_heap_shift_down_`. The hole is at most `fuel` rounds from a leaf. -/
def minHeapShiftDown : ℕ → MinHeap → Events → ℕ → EventPtr → Option (MinHeap × Events)
  | 0, s, m, holeIndex, e => s.store m holeIndex e
  | fuel + 1, s, m, holeIndex, e =>
      if 2 * (holeIndex + 1) ≤ s.n then do
        let minChild ← minChildOf s m (2 * (holeIndex + 1))
        let q ← s.slot minChild
        if minHeapElemGreater m e q then
          let r ← s.store m holeIndex q
          minHeapShiftDown fuel r.1 r.2 minChild e
        else s.store m holeIndex e
      else s.store m holeIndex e

/-- `min_heap_reserve`: `none` when `mm_realloc` gives no memory, for the source's `-1`. -/
def minHeapReserve (granted : Bool) (s : MinHeap) (n : ℕ) : Option MinHeap :=
  if s.a < n then
    let a := if s.a ≠ 0 then s.a * 2 % 0x100000000 else 8
    let a := if a < n then n else a
    if granted then some { s with a := a } else none
  else some s

/-- `min_heap_push`, when room has been reserved. -/
def minHeapPush (s : MinHeap) (m : Events) (e : EventPtr) : Option (MinHeap × Events) :=
  minHeapShiftUp s.n { s with n := s.n + 1 } m s.n e

/-- `min_heap_idx = -1`. -/
def Events.forget (m : Events) (e : EventPtr) : Events :=
  Function.update m e { m e with minHeapIdx := -1 }

/-- `min_heap_pop`. -/
def minHeapPop (s : MinHeap) (m : Events) : Option (MinHeap × Events × Option EventPtr) :=
  if s.n ≠ 0 then do
    let e ← s.slot 0
    let last ← s.last
    let r ← minHeapShiftDown (s.n - 1) { s with n := s.n - 1 } m 0 last
    pure (r.1, r.2.forget e, some e)
  else some (s, m, none)

/-- `idx > 0 && min_heap_elem_greater(s->p[parent], last)`. -/
def lastGoesUp (s : MinHeap) (m : Events) (idx : ℕ) (last : EventPtr) : Option Bool :=
  if idx > 0 then (s.slot ((idx - 1) / 2)).map (minHeapElemGreater m · last) else some false

/-- `min_heap_erase`, with what it returns. -/
def minHeapErase (s : MinHeap) (m : Events) (e : EventPtr) : Option (MinHeap × Events × ℤ) :=
  if (m e).minHeapIdx ≠ -1 then do
    let idx := (m e).minHeapIdx.toNat
    let last ← s.last
    let up ← lastGoesUp s m idx last
    let r ← if up then minHeapShiftUp idx { s with n := s.n - 1 } m idx last
      else minHeapShiftDown (s.n - 1) { s with n := s.n - 1 } m idx last
    pure (r.1, r.2.forget e, 0)
  else some (s, m, -1)

/-! ### The heap as one of the library -/

/-- The pointers, and the index every event carries. -/
def slots (s : MinHeap) (m : Events) : Slots EventPtr := ⟨s.p, fun e => (m e).minHeapIdx⟩

/-- The events with other indices. -/
def Events.withIdx (m : Events) (pos : EventPtr → ℤ) : Events :=
  fun e => { m e with minHeapIdx := pos e }

/-- The heap and the events once pointers and indices are those of `t`. -/
def ofSlots (s : MinHeap) (m : Events) (t : Slots EventPtr) : MinHeap × Events :=
  ({ s with p := t.p }, m.withIdx t.pos)

/-- What the heap is ordered by. -/
def timeoutKey (m : Events) (e : EventPtr) : ℤ ×ₗ ℤ := (m e).evTimeout.key

@[simp] theorem slots_p (s : MinHeap) (m : Events) : (slots s m).p = s.p := rfl

@[simp] theorem slots_ofSlots (s : MinHeap) (m : Events) (t : Slots EventPtr) :
    slots (ofSlots s m t).1 (ofSlots s m t).2 = t := rfl

@[simp] theorem ofSlots_ofSlots (s : MinHeap) (m : Events) (t t' : Slots EventPtr) :
    ofSlots (ofSlots s m t).1 (ofSlots s m t).2 t' = ofSlots s m t' := rfl

@[simp] theorem timeoutKey_ofSlots (s : MinHeap) (m : Events) (t : Slots EventPtr) :
    timeoutKey (ofSlots s m t).2 = timeoutKey m := rfl

theorem minHeapElemGreater_iff {m : Events} {a b : EventPtr} :
    minHeapElemGreater m a b = true ↔ timeoutKey m b < timeoutKey m a :=
  evutilTimercmp_gt

theorem MinHeap.slot_eq {s : MinHeap} {i : ℕ} (h : i < s.a) : s.slot i = some (s.p i) :=
  if_pos h

theorem MinHeap.store_eq {s : MinHeap} {m : Events} {i : ℕ} {e : EventPtr} (h : i < s.a) :
    s.store m i e = some (ofSlots s m ((slots s m).place i e)) := by
  rw [MinHeap.store, if_pos h]
  refine congrArg some (Prod.ext rfl (funext fun x => ?_))
  by_cases hx : x = e
  · subst hx
    simp [ofSlots, Events.withIdx, Slots.place]
  · simp [ofSlots, Events.withIdx, Slots.place, slots, hx]

/-- **Sifting up** stays in the block, and is that of the library. -/
theorem minHeapShiftUp_eq {fuel : ℕ} {s : MinHeap} {m : Events} {hole : ℕ} {e : EventPtr}
    (h : hole < s.a) : minHeapShiftUp fuel s m hole e =
      some (ofSlots s m (up (timeoutKey m) fuel (slots s m) hole e)) := by
  induction fuel generalizing s m hole with
  | zero => exact MinHeap.store_eq h
  | succ fuel ih =>
      rw [minHeapShiftUp, up]
      by_cases hzero : hole = 0
      · rw [if_pos hzero, if_neg fun hc => hc.1 hzero]
        exact MinHeap.store_eq h
      · have hp : parent hole < s.a := (parent_lt hzero).trans h
        have hslot : s.slot ((hole - 1) / 2) = some (s.p (parent hole)) := MinHeap.slot_eq hp
        rw [if_neg hzero, hslot]
        simp only [bind, Option.bind]
        by_cases hlt : timeoutKey m e < timeoutKey m (s.p (parent hole))
        · rw [if_pos (minHeapElemGreater_iff.mpr hlt), if_pos ⟨hzero, hlt⟩, MinHeap.store_eq h]
          simp only
          exact ih hp
        · rw [if_neg fun hc => hlt (minHeapElemGreater_iff.mp hc), if_neg fun hc => hlt hc.2]
          exact MinHeap.store_eq h

theorem minChildOf_eq {s : MinHeap} {m : Events} {right : ℕ} (hle : right ≤ s.n) (hn : s.n ≤ s.a) :
    minChildOf s m right = some (lesserChild (timeoutKey m) (slots s m) s.n right) := by
  rw [minChildOf, lesserChild]
  by_cases hlast : right = s.n
  · rw [if_pos hlast, if_pos (Or.inl hlast)]
  · rw [if_neg hlast, MinHeap.slot_eq (by omega), MinHeap.slot_eq (by omega)]
    simp only [bind, Option.bind, pure, minHeapElemGreater_iff, hlast, false_or]
    rfl

/-- **Sifting down** stays in the block, and is that of the library. -/
theorem minHeapShiftDown_eq {fuel : ℕ} {s : MinHeap} {m : Events} {hole : ℕ} {e : EventPtr}
    (h : hole < s.a) (hn : s.n ≤ s.a) : minHeapShiftDown fuel s m hole e =
      some (ofSlots s m (down (timeoutKey m) s.n fuel (slots s m) hole e)) := by
  induction fuel generalizing s m hole with
  | zero => exact MinHeap.store_eq h
  | succ fuel ih =>
      rw [minHeapShiftDown, down]
      by_cases hle : 2 * (hole + 1) ≤ s.n
      · rw [if_pos hle, if_pos hle, minChildOf_eq hle hn]
        set c := lesserChild (timeoutKey m) (slots s m) s.n (2 * (hole + 1)) with hc
        have hca : c < s.a := (lesserChild_spec hle).1.trans_le hn
        simp only [bind, Option.bind]
        rw [MinHeap.slot_eq hca]
        simp only
        by_cases hlt : timeoutKey m (s.p c) < timeoutKey m e
        · have hlt' : timeoutKey m ((slots s m).p c) < timeoutKey m e := hlt
          rw [if_pos (minHeapElemGreater_iff.mpr hlt), if_pos hlt', MinHeap.store_eq h]
          simp only
          exact ih hca hn
        · have hlt' : ¬ timeoutKey m ((slots s m).p c) < timeoutKey m e := hlt
          rw [if_neg fun hg => hlt (minHeapElemGreater_iff.mp hg), if_neg hlt']
          exact MinHeap.store_eq h
      · rw [if_neg hle, if_neg hle]
        exact MinHeap.store_eq h

/-- The heap is well formed, and holds the events of `M`: it fits in its block, it is in order,
and the events carry the index where they stand, or `-1` if they stand nowhere. -/
structure MinHeap.Wf (s : MinHeap) (m : Events) (M : Set EventPtr) : Prop where
  room : s.n ≤ s.a
  full : Full (slots s m) s.n M
  ordered : Ordered (timeoutKey m) s.p s.n
  out : ∀ x, x ∉ M → (m x).minHeapIdx = -1

section Wf

variable {s : MinHeap} {m : Events} {M : Set EventPtr} {e : EventPtr}

/-- Nothing but the times and the indices of the events matters. -/
theorem MinHeap.Wf.congr (h : s.Wf m M) {m' : Events} {M' : Set EventPtr} (hM : M' = M)
    (hidx : ∀ x, (m' x).minHeapIdx = (m x).minHeapIdx)
    (htimeout : ∀ x ∈ M, (m' x).evTimeout = (m x).evTimeout) : s.Wf m' M' := by
  subst hM
  have hslots : slots s m' = slots s m := congrArg (Slots.mk s.p) (funext hidx)
  refine ⟨h.room, hslots ▸ h.full, h.ordered.of_monotone fun i hi j hj hle => ?_, fun x hx => ?_⟩
  · have hkey : ∀ k < s.n, timeoutKey m' (s.p k) = timeoutKey m (s.p k) := fun k hk =>
      congrArg Timeval.key (htimeout _ (h.full.mem k hk))
    rw [hkey i hi, hkey j hj]
    exact hle
  · rw [hidx]
    exact h.out x hx

theorem MinHeap.Wf.idx_ne (h : s.Wf m M) (he : e ∈ M) : (m e).minHeapIdx ≠ -1 := by
  have hpos : 0 ≤ (m e).minHeapIdx := h.full.pos_nonneg he
  omega

/-- Room for one more. -/
theorem MinHeap.Wf.reserve (h : s.Wf m M) {granted : Bool} {s' : MinHeap}
    (hs : minHeapReserve granted s (s.n + 1) = some s') :
    s'.Wf m M ∧ s'.n < s'.a ∧ s'.n = s.n ∧ s'.p = s.p := by
  unfold minHeapReserve at hs
  dsimp only at hs
  generalize (if s.a ≠ 0 then s.a * 2 % 0x100000000 else 8) = a at hs
  split at hs
  · split at hs
    · obtain rfl := Option.some.inj hs
      have hroom : s.n < if a < s.n + 1 then s.n + 1 else a := by split <;> omega
      exact ⟨⟨hroom.le, h.full, h.ordered, h.out⟩, hroom, rfl, rfl⟩
    · cases hs
  · obtain rfl := Option.some.inj hs
    exact ⟨h, by omega, rfl, rfl⟩

/-- **Adding.** -/
theorem MinHeap.Wf.push (h : s.Wf m M) (he : e ∉ M) (hroom : s.n < s.a) :
    ∃ s' pos, minHeapPush s m e = some (s', m.withIdx pos) ∧
      s'.Wf (m.withIdx pos) (insert e M) ∧ s'.n = s.n + 1 ∧ s'.a = s.a := by
  have hs := sifted_push h.full h.ordered he
  refine ⟨_, _, minHeapShiftUp_eq hroom, ⟨hroom, hs.full, hs.ordered, fun x hx => ?_⟩, rfl, rfl⟩
  have hx' : x ∉ M := fun hmem => hx (Set.mem_insert_of_mem e hmem)
  exact (hs.frame x hx).trans (h.out x hx')

theorem Events.forget_withIdx (m : Events) (pos : EventPtr → ℤ) (e : EventPtr) :
    (m.withIdx pos).forget e = m.withIdx (Function.update pos e (-1)) := by
  refine funext fun x => ?_
  by_cases hx : x = e
  · subst hx
    simp [Events.forget, Events.withIdx]
  · simp [Events.forget, Events.withIdx, hx]

/-- Taking out the event at a place, as the library does. -/
theorem MinHeap.Wf.erased (h : s.Wf m M) {n hole : ℕ} (hn : s.n = n + 1) (hlt : hole < n + 1) :
    ({ s with p := (erase (timeoutKey m) n (slots s m) hole).p, n := n } : MinHeap).Wf
      (m.withIdx (erase (timeoutKey m) n (slots s m) hole).pos) (M \ {s.p hole}) := by
  have hfull := h.full
  have hord := h.ordered
  rw [hn] at hfull hord
  obtain ⟨hfull', hord', hgone, hframe⟩ := Heaps.erased hfull hord hlt
  refine ⟨?_, hfull', hord', fun x hx => ?_⟩
  · have hroom := h.room
    dsimp only
    omega
  · by_cases hxe : x = s.p hole
    · subst hxe
      exact hgone
    · have hx' : x ∉ M := fun hmem => hx ⟨hmem, hxe⟩
      exact (hframe x hx').trans (h.out x hx')

/-- Whether the event that takes a place has to go up. -/
theorem lastGoesUp_eq {hole : ℕ} {x : EventPtr} (h : hole < s.a) : lastGoesUp s m hole x =
    some (decide (hole ≠ 0 ∧ timeoutKey m x < timeoutKey m (s.p (parent hole)))) := by
  unfold lastGoesUp
  by_cases hzero : hole = 0
  · subst hzero
    simp
  · have hp : parent hole < s.a := (parent_lt hzero).trans h
    have hslot : s.slot ((hole - 1) / 2) = some (s.p (parent hole)) := MinHeap.slot_eq hp
    rw [if_pos (Nat.pos_of_ne_zero hzero), hslot, Option.map_some]
    refine congrArg some ((Bool.eq_iff_iff).mpr ?_)
    rw [minHeapElemGreater_iff, decide_eq_true_iff]
    exact ⟨fun hlt => ⟨hzero, hlt⟩, And.right⟩

/-- **Deleting** an event of the heap, wherever it stands. -/
theorem MinHeap.Wf.erase (h : s.Wf m M) (he : e ∈ M) :
    ∃ s' pos, minHeapErase s m e = some (s', m.withIdx pos, 0) ∧
      s'.Wf (m.withIdx pos) (M \ {e}) ∧ s.n = s'.n + 1 ∧ s'.a = s.a := by
  obtain ⟨hole, hlt, rfl⟩ := h.full.all e he
  obtain ⟨n, hn⟩ : ∃ n, s.n = n + 1 := ⟨s.n - 1, by omega⟩
  have hroom := h.room
  have hidx : (m ((slots s m).p hole)).minHeapIdx = hole := h.full.pos hole hlt
  have hlast : s.last = some (s.p n) := by
    rw [MinHeap.last, if_pos (by omega), MinHeap.slot_eq (by omega)]
    exact congrArg (some <| s.p ·) (by omega)
  refine ⟨_, _, ?_, h.erased hn (hn ▸ hlt), hn, rfl⟩
  rw [minHeapErase, if_pos (h.idx_ne he), hidx, hlast]
  simp only [bind, Option.bind, Int.toNat_natCast, pure, lastGoesUp_eq (hlt.trans_le hroom)]
  have hn' : s.n - 1 = n := by omega
  have hup := @minHeapShiftUp_eq hole { s with n := n } m hole (s.p n) (hlt.trans_le hroom)
  have hdown := @minHeapShiftDown_eq n { s with n := n } m hole (s.p n) (hlt.trans_le hroom)
    (by dsimp only; omega)
  simp only [decide_eq_true_eq, Heaps.erase, hn', slots_p]
  split
  · rename_i hcond
    rw [hup, replace_of_lt hcond.1 hcond.2]
    exact congrArg some (Prod.ext rfl (Prod.ext (Events.forget_withIdx ..) rfl))
  · rename_i hcond
    rw [hdown, replace_of_not_lt fun hne hlt => hcond ⟨hne, hlt⟩]
    exact congrArg some (Prod.ext rfl (Prod.ext (Events.forget_withIdx ..) rfl))

/-- **The top** is one of the events that wait for the earliest time. -/
theorem MinHeap.Wf.top (h : s.Wf m M) :
    (minHeapTop s = none ∧ M = ∅) ∨
      ∃ e ∈ M, minHeapTop s = some e ∧ ∀ x ∈ M, timeoutKey m e ≤ timeoutKey m x := by
  by_cases hn : s.n = 0
  · exact Or.inl ⟨if_neg fun hne => hne hn, h.full.eq_zero_iff.mp hn⟩
  · refine Or.inr ⟨s.p 0, h.full.mem 0 (Nat.pos_of_ne_zero hn), if_pos hn, fun x hx => ?_⟩
    obtain ⟨i, hi, rfl⟩ := h.full.all x hx
    exact h.ordered.root_le hi

theorem MinHeap.Wf.isTop_iff (h : s.Wf m M) :
    minHeapEltIsTop m e = true ↔ minHeapTop s = some e := by
  rw [minHeapEltIsTop, beq_iff_eq, minHeapTop]
  constructor
  · intro hidx
    have he : e ∈ M := by
      by_contra hout
      rw [h.out e hout] at hidx
      omega
    obtain ⟨hlt, hp⟩ := h.full.p_of_pos he (i := 0) hidx
    rw [if_pos (by omega), show s.p 0 = e from hp]
  · intro htop
    split at htop
    · rename_i hn
      obtain rfl := Option.some.inj htop
      exact h.full.pos 0 (Nat.pos_of_ne_zero hn)
    · cases htop

/-- **Popping** deletes the top. -/
theorem MinHeap.Wf.pop (h : s.Wf m M) :
    (M = ∅ ∧ minHeapPop s m = some (s, m, none)) ∨
      ∃ e ∈ M, ∃ s' pos, minHeapTop s = some e ∧
        minHeapPop s m = some (s', m.withIdx pos, some e) ∧ s'.Wf (m.withIdx pos) (M \ {e}) := by
  by_cases hn : s.n = 0
  · exact Or.inl ⟨h.full.eq_zero_iff.mp hn, if_neg fun hne => hne hn⟩
  · obtain ⟨n, hn'⟩ : ∃ n, s.n = n + 1 := ⟨s.n - 1, by omega⟩
    have hroom := h.room
    have hlast : s.last = some (s.p n) := by
      rw [MinHeap.last, if_pos hn, MinHeap.slot_eq (by omega)]
      exact congrArg (some <| s.p ·) (by omega)
    refine Or.inr ⟨s.p 0, h.full.mem 0 (by omega), _, _, if_pos hn, ?_, h.erased hn' (by omega)⟩
    have hpred : s.n - 1 = n := by omega
    rw [minHeapPop, if_pos hn, MinHeap.slot_eq (by omega), hlast]
    have hdown := @minHeapShiftDown_eq n { s with n := n } m 0 (s.p n) (by dsimp only; omega)
      (by dsimp only; omega)
    simp only [bind, Option.bind, pure, hpred, Heaps.erase, slots_p]
    rw [hdown, replace_of_not_lt fun hne => absurd rfl hne]
    exact congrArg some (Prod.ext rfl (Prod.ext (Events.forget_withIdx ..) rfl))

end Wf

end EventLoop

end IocpEcho
