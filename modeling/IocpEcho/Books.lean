import IocpEcho.Steps

/-!
# The Books of the Server

Every libevent call of the server takes its reference together with the lock of the
bufferevent and leaves the frame that releases both, so the reference count and the lock of
every bufferevent are accounted for by the frames on the stacks, the overlapped operations in
progress and the creation (`Books`). This module marks the frames and proves that every step
of the server balances its books.

One obligation stays open here: `bufferevent_free` must not be called twice on one
bufferevent, or the reference of the creation would be dropped twice. That is what the
registry invariant provides, so the step lemma takes it as a hypothesis.

## Main results

* `Books.exec`, `Books.start`: every step keeps the books balanced.
* `Books.freed_of_last`: the last reference is dropped only after `bufferevent_free`.
-/

namespace IocpEcho

open Interleaving

/-! ### Marks -/

/-- The bufferevent of which a frame releases a reference and a lock level. -/
def Frame.releases : Frame → Option Addr
  | .decrefAndUnlock p => some p
  | _ => none

/-- The bufferevent of which a frame drops a reference. -/
def Frame.drops : Frame → Option Addr
  | .decref p => some p
  | _ => none

/-- The bufferevent under whose lock a frame runs. The callbacks run under the lock of the
bufferevent they are called for. -/
def Frame.under : Frame → Option Addr
  | .readcb _ p | .writecb p | .eventcb _ p _ => some p
  | .considerReading _ p | .considerWriting p => some p
  | .runReadcb p | .runWritecb p | .runEventcb p _ => some p
  | _ => none

/-- The marks of the server's frames. -/
def frameMarks : Marks Frame Addr :=
  ⟨Frame.releases, Frame.drops, Frame.under⟩

@[simp] theorem frameMarks_releases (f : Frame) : frameMarks.releases f = f.releases := rfl

@[simp] theorem frameMarks_drops (f : Frame) : frameMarks.drops f = f.drops := rfl

@[simp] theorem frameMarks_under (f : Frame) : frameMarks.under f = f.under := rfl

/-- The books of all bufferevents. -/
def ledgers (m : Memory) (p : Addr) : Option (Ledger Tid) :=
  (m.heap p).map Bufferevent.ledger

/-- Lock and reference count of every bufferevent are accounted for. -/
def Books (s : State) : Prop :=
  Disciplined frameMarks (ledgers s.mem) s.stack

theorem ledgers_setBev (m : Memory) (p : Addr) (b : Option Bufferevent) :
    ledgers (m.setBev p b) = Function.update (ledgers m) p (b.map Bufferevent.ledger) := by
  funext q
  by_cases hq : q = p
  · subst hq
    simp [ledgers, Memory.setBev]
  · simp [ledgers, Memory.setBev, hq]

/-! ### Balanced steps -/

section Balance

variable {s : State} {t : Tid} {p : Addr} {popped post : List Frame} {b : Bufferevent}

/-- The lock depth and the count of a bufferevent whose lock can be entered, read off the
stack of the entering thread. -/
theorem Books.facts (h : Books s) (hs : s.stack t = popped ++ post)
    (hb : s.mem.heap p = some b) (ha : available t b.lock = true) :
    b.lock = lockOf t (held frameMarks p popped + held frameMarks p post) ∧
      b.refcnt = b.outside + refs frameMarks p popped + refs frameMarks p post := by
  have hl : ledgers s.mem p = some b.ledger := by rw [ledgers, hb]; rfl
  obtain ⟨hlock, -⟩ := Disciplined.lock_eq_lockOf h hl ha
  have hcount := Disciplined.count_of_available h hl ha
  rw [hs, held_append] at hlock
  rw [hs, refs_append] at hcount
  refine ⟨hlock, ?_⟩
  rw [Nat.add_assoc]
  exact hcount

/-- A bufferevent with lock levels left on a stack is alive, and the thread of that stack can
enter its lock. -/
theorem Books.alive_of_held (h : Books s) (ht : 0 < held frameMarks p (s.stack t)) :
    ∃ b, s.mem.heap p = some b ∧ available t b.lock = true := by
  obtain ⟨l, hl, hlock⟩ := Disciplined.lock_of_held h ht
  obtain ⟨b, hb, rfl⟩ := Option.map_eq_some_iff.mp hl
  refine ⟨b, hb, ?_⟩
  have hlk : b.lock = some (t, held frameMarks p (s.stack t)) := hlock
  rw [hlk]
  simp [available]

/-- A frame under a lock has its bufferevent alive. -/
theorem Books.alive_of_under (h : Books s) {f : Frame} (hf : f ∈ s.stack t)
    (hu : f.under = some p) : ∃ b, s.mem.heap p = some b ∧ available t b.lock = true :=
  h.alive_of_held ((h.guarded t).held_pos hf (Or.inl hu))

/-- What a libevent call on the bufferevent `b` at `p` does to the books: it replaces the
frames `popped` by the frames of its result, moves the lock with the releasing frames and the
count with the references, and destroys only what has no lock level left. -/
structure Balanced (t : Tid) (p : Addr) (popped post : List Frame) (b : Bufferevent)
    (res : Option Bufferevent × List Frame) : Prop where
  others : ∀ q, q ≠ p → held frameMarks q res.2 = held frameMarks q popped ∧
    refs frameMarks q res.2 = refs frameMarks q popped
  guarded : Guarded frameMarks (res.2 ++ post)
  lock : ∀ b', res.1 = some b' →
    b'.lock = lockOf t (held frameMarks p res.2 + held frameMarks p post)
  count : ∀ b', res.1 = some b' → b'.refcnt + b.outside + refs frameMarks p popped
    = b.refcnt + b'.outside + refs frameMarks p res.2
  gone : res.1 = none → held frameMarks p res.2 + held frameMarks p post = 0

/-- A balanced call keeps the books. -/
theorem Books.balance (h : Books s) (hs : s.stack t = popped ++ post)
    (hb : s.mem.heap p = some b) (ha : available t b.lock = true)
    {res : Option Bufferevent × List Frame} (hres : Balanced t p popped post b res) :
    Books (s.set t (s.mem.setBev p res.1, res.2) post) := by
  have hl : ledgers s.mem p = some b.ledger := by rw [ledgers, hb]; rfl
  have hheld := fun q hq => (hres.others q hq).1
  have hrefs := fun q hq => (hres.others q hq).2
  simp only [Books, Config.set, ledgers_setBev]
  cases hr : res.1 with
  | none =>
      exact Disciplined.destroy h hs hl ha hheld hrefs (hres.gone hr) hres.guarded
  | some b' =>
      exact Disciplined.update h hs hl ha hheld hrefs (hres.lock b' hr) (hres.count b' hr)
        hres.guarded

/-- A step that leaves the bufferevents alone and pushes unmarked frames keeps the books. -/
theorem Books.quiet (h : Books s) (hs : s.stack t = popped ++ post)
    {r : Memory × List Frame} (hmem : r.1.heap = s.mem.heap)
    (hheld : ∀ q, held frameMarks q r.2 = held frameMarks q popped)
    (hrefs : ∀ q, refs frameMarks q r.2 = refs frameMarks q popped)
    (hg : Guarded frameMarks (r.2 ++ post)) : Books (s.set t r post) := by
  have hled : ledgers r.1 = ledgers s.mem := by
    funext q
    rw [ledgers, ledgers, hmem]
  simp only [Books, Config.set, hled]
  exact Disciplined.keep h hs hheld hrefs hg

/-- Frames that neither release nor drop anything. -/
def Unmarked (l : List Frame) : Prop :=
  ∀ f ∈ l, f.releases = none ∧ f.drops = none

theorem Unmarked.held_eq_zero {l : List Frame} (h : Unmarked l) (q : Addr) :
    held frameMarks q l = 0 := by
  refine List.countP_eq_zero.mpr fun f hf => ?_
  simp [(h f hf).1]

theorem Unmarked.refs_eq_zero {l : List Frame} (h : Unmarked l) (q : Addr) :
    refs frameMarks q l = 0 := by
  rw [refs, h.held_eq_zero, Nat.zero_add]
  refine List.countP_eq_zero.mpr fun f hf => ?_
  simp [(h f hf).2]

theorem Unmarked.cons {f : Frame} {l : List Frame} (hr : f.releases = none)
    (hd : f.drops = none) (h : Unmarked l) : Unmarked (f :: l) := by
  intro g hg
  rcases List.mem_cons.mp hg with rfl | hg
  · exact ⟨hr, hd⟩
  · exact h g hg

theorem Unmarked.nil : Unmarked [] := by
  intro f hf
  simp at hf

theorem Unmarked.single {f : Frame} (hr : f.releases = none) (hd : f.drops = none) :
    Unmarked [f] :=
  Unmarked.nil.cons hr hd

/-- A call that keeps lock, count and outside references and pushes unmarked frames. -/
theorem Balanced.stay {b' : Bufferevent} {fs : List Frame} (hpop : Unmarked popped)
    (hfs : Unmarked fs)
    (hfacts : b.lock = lockOf t (held frameMarks p popped + held frameMarks p post) ∧
      b.refcnt = b.outside + refs frameMarks p popped + refs frameMarks p post)
    (hlock : b'.lock = b.lock) (hcount : b'.refcnt = b.refcnt)
    (hout : b'.outside = b.outside) (hg : Guarded frameMarks (fs ++ post)) :
    Balanced t p popped post b (some b', fs) where
  others q _ := by
    rw [hpop.held_eq_zero, hpop.refs_eq_zero, hfs.held_eq_zero, hfs.refs_eq_zero]
    exact ⟨rfl, rfl⟩
  guarded := hg
  lock b'' h'' := by
    obtain rfl : b' = b'' := Option.some.inj h''
    rw [hlock, hfacts.1, hpop.held_eq_zero, hfs.held_eq_zero]
  count b'' h'' := by
    obtain rfl : b' = b'' := Option.some.inj h''
    rw [hpop.refs_eq_zero, hfs.refs_eq_zero, hcount, hout]
  gone h'' := by simp at h''

/-- Frames that run under the lock of `p` or under none, pushed above its release. -/
theorem guarded_above {pre rest : List Frame} (hpre : Unmarked pre)
    (hunder : ∀ f ∈ pre, ∀ q, f.under = some q → p = q)
    (hg : Guarded frameMarks (rest ++ post)) :
    Guarded frameMarks ((pre ++ .decrefAndUnlock p :: rest) ++ post) := by
  have hrel : Guarded frameMarks (.decrefAndUnlock p :: (rest ++ post)) :=
    ⟨fun q hq => by simp [Frame.under, Frame.drops] at hq, hg⟩
  rw [List.append_assoc, List.cons_append]
  refine hrel.append fun f hf q hq => ?_
  rcases hq with hq | hq
  · obtain rfl := hunder f hf q hq
    rw [held_cons, frameMarks_releases, Frame.releases, if_pos rfl]
    omega
  · rw [frameMarks_drops, (hpre f hf).2] at hq
    simp at hq

/-- The releases of the frames that a call leaves above and below its own. -/
theorem held_above {pre rest : List Frame} (hpre : Unmarked pre) (hrest : Unmarked rest)
    (q : Addr) : held frameMarks q (pre ++ .decrefAndUnlock p :: rest)
      = if p = q then 1 else 0 := by
  simp [held_append, hpre.held_eq_zero, hrest.held_eq_zero, Frame.releases]

theorem refs_above {pre rest : List Frame} (hpre : Unmarked pre) (hrest : Unmarked rest)
    (q : Addr) : refs frameMarks q (pre ++ .decrefAndUnlock p :: rest)
      = if p = q then 1 else 0 := by
  simp [refs_append, hpre.refs_eq_zero, hrest.refs_eq_zero, Frame.releases, Frame.drops]

/-- A call that takes a reference and a lock level and leaves the frame that releases
them. -/
theorem Balanced.enter {b₁ : Bufferevent} {pre rest : List Frame} (hpop : Unmarked popped)
    (hpre : Unmarked pre) (hrest : Unmarked rest)
    (hfacts : b.lock = lockOf t (held frameMarks p popped + held frameMarks p post) ∧
      b.refcnt = b.outside + refs frameMarks p popped + refs frameMarks p post)
    (hlock : b₁.lock = b.lock) (hcount : b₁.refcnt = b.refcnt)
    (hout : b₁.outside = b.outside)
    (hunder : ∀ f ∈ pre, ∀ q, f.under = some q → p = q)
    (hg : Guarded frameMarks (rest ++ post)) :
    Balanced t p popped post b
      (some (b₁.increfAndLock t), pre ++ .decrefAndUnlock p :: rest) := by
  refine ⟨fun q hq => ?_, guarded_above hpre hunder hg, fun b' h' => ?_, fun b' h' => ?_,
    fun h' => ?_⟩
  · rw [held_above hpre hrest, refs_above hpre hrest, hpop.held_eq_zero, hpop.refs_eq_zero,
      if_neg (Ne.symm hq)]
    exact ⟨rfl, rfl⟩
  · obtain rfl : b₁.increfAndLock t = b' := Option.some.inj h'
    have hlk : (b₁.increfAndLock t).lock = lockBy t b₁.lock := rfl
    rw [hlk, hlock, hfacts.1, hpop.held_eq_zero, lockBy_lockOf, held_above hpre hrest,
      if_pos rfl]
    congr 1
    omega
  · obtain rfl : b₁.increfAndLock t = b' := Option.some.inj h'
    have hrc : (b₁.increfAndLock t).refcnt = b₁.refcnt + 1 := rfl
    have hou : (b₁.increfAndLock t).outside = b₁.outside := rfl
    rw [hrc, hou, hcount, hout, hpop.refs_eq_zero, refs_above hpre hrest, if_pos rfl]
    omega
  · simp at h'

/-- A completion enters the lock; the reference of its operation moves to the frame that
releases it. -/
theorem Balanced.complete {b' : Bufferevent} {pre : List Frame} (hpre : Unmarked pre)
    (hfacts : b.lock = lockOf t (held frameMarks p [] + held frameMarks p []) ∧
      b.refcnt = b.outside + refs frameMarks p [] + refs frameMarks p [])
    (hlock : b'.lock = lockBy t b.lock) (hcount : b'.refcnt = b.refcnt)
    (hout : b.outside = b'.outside + 1)
    (hunder : ∀ f ∈ pre, ∀ q, f.under = some q → p = q) :
    Balanced t p [] [] b (some b', pre ++ [.decrefAndUnlock p]) := by
  refine ⟨fun q hq => ?_, guarded_above hpre hunder trivial, fun b'' h'' => ?_,
    fun b'' h'' => ?_, fun h'' => ?_⟩
  · rw [held_above hpre Unmarked.nil, refs_above hpre Unmarked.nil, if_neg (Ne.symm hq)]
    exact ⟨rfl, rfl⟩
  · obtain rfl : b' = b'' := Option.some.inj h''
    rw [hlock, hfacts.1, held_above hpre Unmarked.nil, if_pos rfl, lockBy_lockOf]
    rfl
  · obtain rfl : b' = b'' := Option.some.inj h''
    rw [hcount, hout, refs_above hpre Unmarked.nil, if_pos rfl, refs_nil]
    omega
  · simp at h''

/-- `bev_async_consider_reading` is balanced. -/
theorem balanced_considerReading {site : ReadSite} (launched : Bool)
    (hfacts : b.lock = lockOf t (held frameMarks p [.considerReading site p]
        + held frameMarks p post) ∧
      b.refcnt = b.outside + refs frameMarks p [.considerReading site p]
        + refs frameMarks p post)
    (hg : Guarded frameMarks (.considerReading site p :: post)) :
    Balanced t p [.considerReading site p] post b (bevAsyncConsiderReading launched p b) := by
  have hpost : 0 < held frameMarks p post := hg.1 p (Or.inl rfl)
  have hpop : Unmarked [Frame.considerReading site p] := Unmarked.single rfl rfl
  rw [bevAsyncConsiderReading]
  split
  · rename_i hw
    have hrip : b.readInProgress = 0 := by
      simp only [Bufferevent.wantsRead, Bool.and_eq_true, decide_eq_true_eq] at hw
      exact hw.1.1
    split
    · -- launched: the reference stays with the operation in progress
      refine ⟨fun q _ => ⟨rfl, rfl⟩, hg.2, fun b' h' => ?_, fun b' h' => ?_, fun h' => ?_⟩
      · obtain rfl := Option.some.inj h'
        exact hfacts.1
      · obtain rfl := Option.some.inj h'
        have hout := b.outside_launchRead hrip
        have hrc : b.launchRead.refcnt = b.refcnt + 1 := rfl
        rw [hout, hrc, hpop.refs_eq_zero, refs_nil]
        omega
      · simp at h'
    · -- not launched: the reference is dropped after the error callback
      have hheld : held frameMarks p [Frame.runEventcb p .error, .decref p] = 0 := by
        simp [Frame.releases]
      refine ⟨fun q hq => ?_, ?_, fun b' h' => ?_, fun b' h' => ?_, fun h' => ?_⟩
      · simp [Frame.releases, Frame.drops, Ne.symm hq]
      · refine ⟨fun q hq => ?_, fun q hq => ?_, hg.2⟩
        · have hqp : p = q := by simpa [Frame.under, Frame.drops] using hq
          subst hqp
          simpa [Frame.releases] using hpost
        · have hqp : p = q := by simpa [Frame.under, Frame.drops] using hq
          subst hqp
          exact hpost
      · obtain rfl := Option.some.inj h'
        rw [hheld]
        exact hfacts.1
      · obtain rfl := Option.some.inj h'
        have hrefs : refs frameMarks p [Frame.runEventcb p .error, .decref p] = 1 := by
          simp [Frame.releases, Frame.drops]
        rw [hpop.refs_eq_zero, hrefs]
        simp only [Bufferevent.outside]
        omega
      · simp at h'
  · exact Balanced.stay hpop Unmarked.nil hfacts rfl rfl rfl hg.2

/-- `bev_async_consider_writing` is balanced. -/
theorem balanced_considerWriting (launched : Bool)
    (hfacts : b.lock = lockOf t (held frameMarks p [.considerWriting p]
        + held frameMarks p post) ∧
      b.refcnt = b.outside + refs frameMarks p [.considerWriting p] + refs frameMarks p post)
    (hg : Guarded frameMarks (.considerWriting p :: post)) :
    Balanced t p [.considerWriting p] post b (bevAsyncConsiderWriting launched p b) := by
  have hpost : 0 < held frameMarks p post := hg.1 p (Or.inl rfl)
  have hpop : Unmarked [Frame.considerWriting p] := Unmarked.single rfl rfl
  rw [bevAsyncConsiderWriting]
  split
  · rename_i hw
    simp only [Bufferevent.wantsWrite, Bool.and_eq_true, decide_eq_true_eq] at hw
    obtain ⟨⟨⟨hwip, -⟩, -⟩, hne⟩ := hw
    split
    · refine ⟨fun q _ => ⟨rfl, rfl⟩, hg.2, fun b' h' => ?_, fun b' h' => ?_, fun h' => ?_⟩
      · obtain rfl := Option.some.inj h'
        exact hfacts.1
      · obtain rfl := Option.some.inj h'
        have hout := b.outside_launchWrite hwip hne
        have hrc : b.launchWrite.refcnt = b.refcnt + 1 := rfl
        rw [hout, hrc, hpop.refs_eq_zero, refs_nil]
        omega
      · simp at h'
    · refine Balanced.stay hpop (Unmarked.single rfl rfl) hfacts rfl rfl rfl ?_
      refine ⟨fun q hq => ?_, hg.2⟩
      have hqp : p = q := by simpa [Frame.under, Frame.drops] using hq
      subst hqp
      exact hpost
  · exact Balanced.stay hpop Unmarked.nil hfacts rfl rfl rfl hg.2

/-- Dropping a counted reference under the lock is balanced, and never the last one. -/
theorem balanced_decref
    (hfacts : b.lock = lockOf t (held frameMarks p [.decref p] + held frameMarks p post) ∧
      b.refcnt = b.outside + refs frameMarks p [.decref p] + refs frameMarks p post)
    (hg : Guarded frameMarks (.decref p :: post)) :
    Balanced t p [.decref p] post b (b.decref, []) := by
  have hpost : 0 < held frameMarks p post := hg.1 p (Or.inr rfl)
  have hle := held_le_refs frameMarks p post
  have hrefs : refs frameMarks p [Frame.decref p] = 1 := by
    simp [Frame.releases, Frame.drops]
  have hheld : held frameMarks p [Frame.decref p] = 0 := by simp [Frame.releases]
  obtain ⟨hlock, hcount⟩ := hfacts
  rw [hrefs] at hcount
  rw [hheld] at hlock
  have hne : b.refcnt - 1 ≠ 0 := by omega
  rw [Bufferevent.decref, if_neg hne]
  refine ⟨fun q hq => ?_, hg.2, fun b' h' => ?_, fun b' h' => ?_, fun h' => ?_⟩
  · simp [Frame.releases, Frame.drops, Ne.symm hq]
  · obtain rfl := Option.some.inj h'
    exact hlock
  · obtain rfl := Option.some.inj h'
    rw [hrefs, refs_nil]
    simp only [Bufferevent.outside]
    omega
  · simp at h'

/-- `_bufferevent_decref_and_unlock` is balanced; the last reference goes only with the last
lock level. -/
theorem balanced_decrefAndUnlock
    (hfacts : b.lock = lockOf t (held frameMarks p [.decrefAndUnlock p]
        + held frameMarks p post) ∧
      b.refcnt = b.outside + refs frameMarks p [.decrefAndUnlock p] + refs frameMarks p post)
    (hg : Guarded frameMarks (.decrefAndUnlock p :: post)) :
    Balanced t p [.decrefAndUnlock p] post b (b.decrefAndUnlock, []) := by
  have hle := held_le_refs frameMarks p post
  have hrefs : refs frameMarks p [Frame.decrefAndUnlock p] = 1 := by
    simp [Frame.releases, Frame.drops]
  have hheld : held frameMarks p [Frame.decrefAndUnlock p] = 1 := by simp [Frame.releases]
  obtain ⟨hlock, hcount⟩ := hfacts
  rw [hrefs] at hcount
  rw [hheld, Nat.add_comm] at hlock
  rw [Bufferevent.decrefAndUnlock]
  split
  · refine ⟨fun q hq => ?_, hg.2, fun b' h' => ?_, fun b' h' => ?_, fun _ => ?_⟩
    · simp [Frame.releases, Frame.drops, Ne.symm hq]
    · simp at h'
    · simp at h'
    · rw [held_nil]
      omega
  · refine ⟨fun q hq => ?_, hg.2, fun b' h' => ?_, fun b' h' => ?_, fun h' => ?_⟩
    · simp [Frame.releases, Frame.drops, Ne.symm hq]
    · obtain rfl := Option.some.inj h'
      simp only [hlock, unlock_lockOf_succ, held_nil, Nat.zero_add]
    · obtain rfl := Option.some.inj h'
      rw [hrefs, refs_nil]
      simp only [Bufferevent.outside]
      omega
    · simp at h'

/-- `bufferevent_free` inside `iocp_conn_eventcb` is balanced on a bufferevent that has not
been freed: it drops the reference of the creation. -/
theorem balanced_free {w : What} (hfreed : b.freed = false)
    (hfacts : b.lock = lockOf t (held frameMarks p [.eventcb .l219 p w]
        + held frameMarks p post) ∧
      b.refcnt = b.outside + refs frameMarks p [.eventcb .l219 p w]
        + refs frameMarks p post)
    (hg : Guarded frameMarks (.eventcb .l219 p w :: post)) :
    Balanced t p [.eventcb .l219 p w] post b (b.free, []) := by
  have hpost : 0 < held frameMarks p post := hg.1 p (Or.inl rfl)
  have hle := held_le_refs frameMarks p post
  have hpop : Unmarked [Frame.eventcb .l219 p w] := Unmarked.single rfl rfl
  obtain ⟨hlock, hcount⟩ := hfacts
  rw [hpop.refs_eq_zero] at hcount
  rw [hpop.held_eq_zero] at hlock
  have hout : 1 ≤ b.outside := by
    simp only [Bufferevent.outside, hfreed, Bool.false_eq_true, if_false]
    omega
  have hne : b.refcnt - 1 ≠ 0 := by omega
  rw [Bufferevent.free, Bufferevent.decref, if_neg hne]
  refine ⟨fun q hq => ⟨rfl, rfl⟩, hg.2, fun b' h' => ?_, fun b' h' => ?_, fun h' => ?_⟩
  · obtain rfl := Option.some.inj h'
    exact hlock
  · obtain rfl := Option.some.inj h'
    rw [hpop.refs_eq_zero, refs_nil]
    simp only [Bufferevent.outside, hfreed]
    simp only [Bufferevent.outside, hfreed] at hcount
    simp only [Bool.false_eq_true, if_false, if_true] at hcount ⊢
    omega
  · simp at h'

/-! ### Every step keeps the books -/

/-- A step from an unmarked frame that leaves the bufferevents alone. -/
theorem Books.move {f : Frame} (h : Books s) (hs : s.stack t = f :: post)
    (hf : Unmarked [f]) {r : Memory × List Frame} (hmem : r.1.heap = s.mem.heap)
    (hfs : Unmarked r.2) (hunder : ∀ g ∈ r.2, ∀ q, g.under = some q → f.under = some q) :
    Books (s.set t r post) := by
  have hg : Guarded frameMarks (f :: post) := hs ▸ h.guarded t
  have hs' : s.stack t = [f] ++ post := hs
  refine h.quiet hs' hmem (fun q => ?_) (fun q => ?_) (hg.2.append fun g hg' q hq => ?_)
  · rw [hfs.held_eq_zero, hf.held_eq_zero]
  · rw [hfs.refs_eq_zero, hf.refs_eq_zero]
  · rcases hq with hq | hq
    · exact hg.1 q (Or.inl (hunder g hg' q hq))
    · rw [frameMarks_drops, (hfs g hg').2] at hq
      simp at hq

/-- The frames a call may leave to consider an operation. -/
theorem unmarked_consider {f : Frame} (hr : f.releases = none) (hd : f.drops = none)
    (c : Bool) : Unmarked (if c then [f] else []) := by
  cases c with
  | false => exact Unmarked.nil
  | true => exact Unmarked.single hr hd

theorem under_consider {f : Frame} (hf : f.under = some p) (c : Bool) :
    ∀ g ∈ (if c then [f] else []), ∀ q, g.under = some q → p = q := by
  intro g hg q hq
  cases c with
  | false => simp at hg
  | true =>
      obtain rfl : g = f := by simpa using hg
      rw [hf] at hq
      exact Option.some.inj hq

/-- `bufferevent_write` from an unmarked frame keeps the books. -/
theorem Books.write {f : Frame} (h : Books s) (hs : s.stack t = f :: post)
    (hf : Unmarked [f]) {data : List Byte} {r : Memory × List Frame}
    (hr : s.mem.onBev t p [] (buffereventWrite t p data) = some r) :
    Books (s.set t r post) := by
  have hg : Guarded frameMarks (f :: post) := hs ▸ h.guarded t
  rcases Memory.onBev_cases hr with ⟨-, rfl⟩ | ⟨b, hb, ha, rfl⟩
  · exact h.move hs hf rfl Unmarked.nil (by simp)
  · have hs' : s.stack t = [f] ++ post := hs
    refine h.balance hs' hb ha ?_
    exact Balanced.enter hf (Unmarked.single rfl rfl) Unmarked.nil (h.facts hs' hb ha)
      rfl rfl rfl (under_consider rfl true) hg.2

theorem Books.execListener (h : Books s) {line : ListenerLine} {c : ℕ} {psin : SockaddrIn}
    (hs : s.stack t = .listener line c p psin :: post) {r : Memory × List Frame}
    (hr : execListener s.mem t line c p psin = some r) : Books (s.set t r post) := by
  have hg : Guarded frameMarks (.listener line c p psin :: post) := hs ▸ h.guarded t
  have hf : Unmarked [Frame.listener line c p psin] := Unmarked.single rfl rfl
  have hs' : s.stack t = [.listener line c p psin] ++ post := hs
  have hnext : ∀ l, Guarded frameMarks ([Frame.listener l c p psin] ++ post) := fun l =>
    hg.2.append fun g hg' q hq => by
      obtain rfl := List.mem_singleton.mp hg'
      simp [Frame.under, Frame.drops] at hq
  have hmove : ∀ l, Unmarked [Frame.listener l c p psin] := fun l => Unmarked.single rfl rfl
  have hunder : ∀ l, ∀ g ∈ [Frame.listener l c p psin], ∀ q, g.under = some q →
      (Frame.listener line c p psin).under = some q := by
    intro l g hg' q hq
    obtain rfl := List.mem_singleton.mp hg'
    exact hq
  cases line with
  | l236 | l238 | l239 =>
      obtain rfl := Option.some.inj hr
      exact h.move hs hf rfl (hmove _) (hunder _)
  | l240 =>
      rcases Memory.onBev_cases hr with ⟨-, rfl⟩ | ⟨b, hb, ha, rfl⟩
      · exact h.move hs hf rfl (hmove _) (hunder _)
      · exact h.balance hs' hb ha
          (Balanced.stay hf (hmove _) (h.facts hs' hb ha) rfl rfl rfl (hnext _))
  | l241 =>
      rcases Memory.onBev_cases hr with ⟨-, rfl⟩ | ⟨b, hb, ha, rfl⟩
      · exact h.move hs hf rfl (hmove _) (hunder _)
      · exact h.balance hs' hb ha
          (Balanced.enter hf (unmarked_consider rfl rfl _) (hmove _) (h.facts hs' hb ha)
            rfl rfl rfl (under_consider rfl _) (hnext _))
  | l242 =>
      rcases Memory.onBev_cases hr with ⟨-, rfl⟩ | ⟨b, hb, ha, rfl⟩
      · exact h.move hs hf rfl (hmove _) (hunder _)
      · exact h.balance hs' hb ha
          (Balanced.enter hf (unmarked_consider rfl rfl _) (hmove _) (h.facts hs' hb ha)
            rfl rfl rfl (under_consider rfl _) (hnext _))
  | l244 => exact h.write hs hf hr

theorem Books.execReadcb (h : Books s) {line : ReadLine} {o : Outcome}
    (hs : s.stack t = .readcb line p :: post) {r : Memory × List Frame}
    (hr : execReadcb s.mem t o p line = some r) : Books (s.set t r post) := by
  have hg : Guarded frameMarks (.readcb line p :: post) := hs ▸ h.guarded t
  have hf : Unmarked [Frame.readcb line p] := Unmarked.single rfl rfl
  have hs' : s.stack t = [.readcb line p] ++ post := hs
  have hmove : ∀ l, Unmarked [Frame.readcb l p] := fun l => Unmarked.single rfl rfl
  have hunder : ∀ l, ∀ g ∈ [Frame.readcb l p], ∀ q, g.under = some q →
      (Frame.readcb line p).under = some q := by
    intro l g hg' q hq
    obtain rfl := List.mem_singleton.mp hg'
    exact hq
  have hnext : ∀ l, Guarded frameMarks ([Frame.readcb l p] ++ post) := fun l =>
    hg.2.append fun g hg' q hq => by
      obtain rfl := List.mem_singleton.mp hg'
      exact hg.1 q hq
  cases line with
  | l162 =>
      rcases Memory.readBev_cases hr with ⟨-, rfl⟩ | ⟨b, -, -, rfl⟩
      · exact h.move hs hf rfl Unmarked.nil (by simp)
      · by_cases hin : b.input = []
        · simp only [if_pos hin]
          exact h.move hs hf rfl Unmarked.nil (by simp)
        · simp only [if_neg hin]
          exact h.move hs hf rfl (hmove _) (hunder _)
  | l171 =>
      rcases Memory.onBev_cases hr with ⟨-, rfl⟩ | ⟨b, hb, ha, rfl⟩
      · exact h.move hs hf rfl (hmove _) (hunder _)
      · refine h.balance hs' hb ha ?_
        by_cases hin : b.input = []
        · simp only [if_pos hin]
          exact Balanced.stay hf (hmove _) (h.facts hs' hb ha) rfl rfl rfl (hnext _)
        · simp only [if_neg hin]
          refine Balanced.enter hf (unmarked_consider rfl rfl true) (hmove _)
            (h.facts hs' hb ha) ?_ ?_ ?_ (under_consider rfl true) (hnext _)
          · rfl
          · rfl
          · rfl
  | l173 buf =>
      obtain rfl := Option.some.inj hr
      exact h.move hs hf rfl (hmove _) (hunder _)
  | l177 buf itFind =>
      obtain rfl := Option.some.inj hr
      exact h.move hs hf rfl (hmove _) (hunder _)
  | l194 itFind a => exact h.write hs hf hr

theorem Books.execEventcb (h : Books s) {line : EventLine} {w : What}
    (hs : s.stack t = .eventcb line p w :: post) {r : Memory × List Frame}
    (hr : execEventcb s.mem t p w line = some r)
    (hfree : ∀ b, line = .l219 → s.mem.heap p = some b → b.freed = false) :
    Books (s.set t r post) := by
  have hg : Guarded frameMarks (.eventcb line p w :: post) := hs ▸ h.guarded t
  have hf : Unmarked [Frame.eventcb line p w] := Unmarked.single rfl rfl
  have hs' : s.stack t = [.eventcb line p w] ++ post := hs
  have hunder : ∀ l, ∀ g ∈ [Frame.eventcb l p w], ∀ q, g.under = some q →
      (Frame.eventcb line p w).under = some q := by
    intro l g hg' q hq
    obtain rfl := List.mem_singleton.mp hg'
    exact hq
  cases line with
  | l209 =>
      obtain rfl := Option.some.inj hr
      exact h.move hs hf rfl (Unmarked.single rfl rfl) (hunder _)
  | l218 =>
      obtain rfl := Option.some.inj hr
      exact h.move hs hf rfl (Unmarked.single rfl rfl) (hunder _)
  | l219 =>
      rcases Memory.onBev_cases hr with ⟨-, rfl⟩ | ⟨b, hb, ha, rfl⟩
      · exact h.move hs hf rfl Unmarked.nil (by simp)
      · exact h.balance hs' hb ha
          (balanced_free (hfree b rfl hb) (h.facts hs' hb ha) hg)

/-- A counted reference on top of the stack belongs to a living bufferevent. -/
theorem Books.alive_of_top {f : Frame} (h : Books s) (hs : s.stack t = f :: post)
    (hf : f.releases = some p ∨ f.drops = some p) : s.mem.heap p ≠ none := by
  have hheld : 0 < held frameMarks p (s.stack t) := by
    rcases hf with hf | hf
    · rw [hs, held_cons, frameMarks_releases, if_pos hf]
      omega
    · exact (h.guarded t).held_pos (hs ▸ List.mem_cons_self) (Or.inr hf)
  obtain ⟨b, hb, -⟩ := h.alive_of_held hheld
  simp [hb]

/-- **Every statement keeps the books**, provided `bufferevent_free` is called on a
bufferevent that has not been freed. -/
theorem Books.exec {f : Frame} {o : Outcome} (h : Books s) (hs : s.stack t = f :: post)
    {r : Memory × List Frame} (hr : exec t o f s.mem = some r)
    (hfree : ∀ q w b, f = .eventcb .l219 q w → s.mem.heap q = some b → b.freed = false) :
    Books (s.set t r post) := by
  have hg : Guarded frameMarks (f :: post) := hs ▸ h.guarded t
  have hs' : s.stack t = [f] ++ post := hs
  cases f with
  | iocpListenerCb sa =>
      have hf : Unmarked [Frame.iocpListenerCb sa] := Unmarked.single rfl rfl
      rcases exec_iocpListenerCb hr with ⟨-, rfl⟩ | ⟨p, -, hp, rfl⟩
      · exact h.move hs hf rfl Unmarked.nil (by simp)
      · have hled : ledgers s.mem p = none := by rw [ledgers, hp]; rfl
        have hnew : Unmarked [Frame.listener .l236 s.mem.nextConn p sa] :=
          Unmarked.single rfl rfl
        have hbooks := Disciplined.create h hs' hled (l := (Bufferevent.new s.mem.nextConn).ledger)
          rfl rfl (fun q => (hnew.held_eq_zero q).trans (hf.held_eq_zero q).symm)
          (fun q => (hnew.refs_eq_zero q).trans (hf.refs_eq_zero q).symm)
          (hg.2.append fun g hg' q hq => by
            obtain rfl := List.mem_singleton.mp hg'
            simp [Frame.under, Frame.drops] at hq)
        have hset := ledgers_setBev s.mem p (some (Bufferevent.new s.mem.nextConn))
        rw [Option.map_some] at hset
        rw [← hset] at hbooks
        exact hbooks
  | listener line c p psin => exact h.execListener hs hr
  | readcb line p => exact h.execReadcb hs hr
  | writecb p =>
      rcases Memory.readBev_cases hr with ⟨-, rfl⟩ | ⟨b, -, -, rfl⟩
      · exact h.move hs (Unmarked.single rfl rfl) rfl Unmarked.nil (by simp)
      · exact h.move hs (Unmarked.single rfl rfl) rfl Unmarked.nil (by simp)
  | eventcb line p w =>
      refine h.execEventcb hs hr fun b hline hb => ?_
      subst hline
      exact hfree p w b rfl hb
  | considerReading site p =>
      rcases Memory.onBev_cases hr with ⟨-, rfl⟩ | ⟨b, hb, ha, rfl⟩
      · exact h.move hs (Unmarked.single rfl rfl) rfl Unmarked.nil (by simp)
      · exact h.balance hs' hb ha (balanced_considerReading _ (h.facts hs' hb ha) hg)
  | considerWriting p =>
      rcases Memory.onBev_cases hr with ⟨-, rfl⟩ | ⟨b, hb, ha, rfl⟩
      · exact h.move hs (Unmarked.single rfl rfl) rfl Unmarked.nil (by simp)
      · exact h.balance hs' hb ha (balanced_considerWriting _ (h.facts hs' hb ha) hg)
  | runReadcb p =>
      rcases Memory.readBev_cases hr with ⟨-, rfl⟩ | ⟨b, -, -, rfl⟩
      · exact h.move hs (Unmarked.single rfl rfl) rfl Unmarked.nil (by simp)
      · exact h.move hs (Unmarked.single rfl rfl) rfl (unmarked_consider rfl rfl _)
          fun g hg' q hq => congrArg some (under_consider rfl _ g hg' q hq)
  | runWritecb p =>
      rcases Memory.readBev_cases hr with ⟨-, rfl⟩ | ⟨b, -, -, rfl⟩
      · exact h.move hs (Unmarked.single rfl rfl) rfl Unmarked.nil (by simp)
      · exact h.move hs (Unmarked.single rfl rfl) rfl (unmarked_consider rfl rfl _)
          fun g hg' q hq => congrArg some (under_consider rfl _ g hg' q hq)
  | runEventcb p w =>
      rcases Memory.readBev_cases hr with ⟨-, rfl⟩ | ⟨b, -, -, rfl⟩
      · exact h.move hs (Unmarked.single rfl rfl) rfl Unmarked.nil (by simp)
      · exact h.move hs (Unmarked.single rfl rfl) rfl (unmarked_consider rfl rfl _)
          fun g hg' q hq => congrArg some (under_consider rfl _ g hg' q hq)
  | decref p =>
      rcases Memory.onBev_cases hr with ⟨hnone, -⟩ | ⟨b, hb, ha, rfl⟩
      · exact absurd hnone (h.alive_of_top hs (Or.inr rfl))
      · exact h.balance hs' hb ha (balanced_decref (h.facts hs' hb ha) hg)
  | decrefAndUnlock p =>
      rcases Memory.onBev_cases hr with ⟨hnone, -⟩ | ⟨b, hb, ha, rfl⟩
      · exact absurd hnone (h.alive_of_top hs (Or.inl rfl))
      · exact h.balance hs' hb ha (balanced_decrefAndUnlock (h.facts hs' hb ha) hg)

/-- The last reference of a bufferevent is dropped only after `bufferevent_free`. -/
theorem Books.freed_of_last {f : Frame} (h : Books s) (hs : s.stack t = f :: post)
    (hf : f = .decrefAndUnlock p ∨ f = .decref p) (hb : s.mem.heap p = some b)
    (ha : available t b.lock = true) (hlast : b.refcnt - 1 = 0) : b.freed = true := by
  have hs' : s.stack t = [f] ++ post := hs
  obtain ⟨-, hcount⟩ := h.facts hs' hb ha
  have hone : refs frameMarks p [f] = 1 := by
    rcases hf with rfl | rfl <;> simp [Frame.releases, Frame.drops]
  have hout : b.outside = 0 := by omega
  cases hfreed : b.freed with
  | true => rfl
  | false =>
      simp only [Bufferevent.outside, hfreed, Bool.false_eq_true, if_false] at hout
      omega

/-- The frames of a completion run under the lock of its bufferevent and are unmarked. -/
theorem Completion.unmarked {e : Event} {b' : Bufferevent} {pre : List Frame}
    (h : Completion e t p b b' pre) :
    Unmarked pre ∧ ∀ f ∈ pre, ∀ q, f.under = some q → p = q := by
  have hframe : ∀ f ∈ pre, f.releases = none ∧ f.drops = none ∧ f.under = some p := by
    intro f hf
    rcases h.frames f hf with ⟨rfl, -⟩ | rfl | ⟨w, rfl, -⟩ | rfl | rfl <;>
      exact ⟨rfl, rfl, rfl⟩
  refine ⟨fun f hf => ⟨(hframe f hf).1, (hframe f hf).2.1⟩, fun f hf q hq => ?_⟩
  rw [(hframe f hf).2.2] at hq
  exact Option.some.inj hq

/-- **Every outside event keeps the books.** -/
theorem Books.start {e : Event} (h : Books s) (hs : s.stack t = [])
    {r : Memory × List Frame} (hr : start t e s.mem = some r) : Books (s.set t r []) := by
  have hs' : s.stack t = [] ++ [] := hs
  rcases start_cases hr with ⟨sa, -, rfl⟩ | ⟨p, b, b', pre, hb, ha, rfl, hcomp⟩
  · have hnew : Unmarked [Frame.iocpListenerCb sa] := Unmarked.single rfl rfl
    refine h.quiet hs' rfl hnew.held_eq_zero hnew.refs_eq_zero ⟨fun q hq => ?_, trivial⟩
    simp [Frame.under, Frame.drops] at hq
  · obtain ⟨hpre, hunder⟩ := hcomp.unmarked
    exact h.balance hs' hb ha (Balanced.complete hpre (h.facts hs' hb ha) hcomp.lock
      hcomp.refcnt hcomp.outside hunder)

end Balance

/-- The books of the initial state. -/
theorem books_init : Books State.init where
  guarded _ := trivial
  dead _ _ _ := rfl
  lock p l hl := by simp [ledgers, State.init] at hl
  count_free p l hl := by simp [ledgers, State.init] at hl
  count_owned p l t d hl := by simp [ledgers, State.init] at hl

end IocpEcho
