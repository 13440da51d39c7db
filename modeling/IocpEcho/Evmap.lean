import IocpEcho.MinHeap
import Mathlib.Data.List.Count
import Mathlib.Order.BooleanAlgebra.Set

/-!
# Which Sockets the Event Loop watches

On Windows the event loop waits in `select`, for which `win32select.c` keeps two sets of
sockets, those to be read from and those to be written to. A set is an array without gaps; so
that a socket can be taken out without a search, every socket knows its place, and the last
socket of the array takes the place that becomes free. Above it, `evmap.c` keeps for every
socket the list of its events, and counts how many of them read and how many write: a socket
is in a set as long as the count is positive.

A function is `none` when the source writes outside of the array of a set, when an assertion
fails or when it follows a null pointer. The memory that a set grows into is taken to be
granted.

## Main results

* `FdSet.doFdSet`, `FdSet.doFdClear`: a set without gaps, whose sockets know their place, stays
  one.
* `IoMap.Wf.add`, `IoMap.Wf.del`: the counts are those of the listed events, and a socket is
  watched exactly for what one of its events waits for.
-/

namespace IocpEcho

namespace EventLoop

open Heaps

/-- `evutil_socket_t`. -/
abbrev Socket := ℤ

/-! ### `win32select.c` -/

/-- `struct win_fd_set`. -/
structure WinFdSet where
  fdCount : ℕ
  fdArray : ℕ → Socket

/-- `struct idx_info`: the place of a socket in the two sets, plus one. -/
structure IdxInfo where
  readPosPlus1 : ℕ
  writePosPlus1 : ℕ
  deriving DecidableEq

/-- The place in one of the sets, plus one. -/
def IdxInfo.posPlus1 (ent : IdxInfo) (read : Bool) : ℕ :=
  if read then ent.readPosPlus1 else ent.writePosPlus1

def IdxInfo.setPosPlus1 (ent : IdxInfo) (read : Bool) (pos : ℕ) : IdxInfo :=
  if read then { ent with readPosPlus1 := pos } else { ent with writePosPlus1 := pos }

/-- `struct evmap_io`, with the `struct idx_info` behind it. -/
structure EvmapIo where
  events : List EventPtr
  nread : ℕ
  nwrite : ℕ
  fdinfo : IdxInfo

/-- `struct win32op`: the sets the sockets are collected in, and the number of sockets that
there is room for in them. `resizeOutSets` says that `select`'s copies have to grow first. -/
structure Win32op where
  numFdsInFdSets : ℕ
  resizeOutSets : Bool
  readsetIn : WinFdSet
  writesetIn : WinFdSet

/-- `read ? op->readset_in : op->writeset_in`. -/
def Win32op.set (op : Win32op) (read : Bool) : WinFdSet :=
  if read then op.readsetIn else op.writesetIn

def Win32op.withSet (op : Win32op) (read : Bool) (set : WinFdSet) : Win32op :=
  if read then { op with readsetIn := set } else { op with writesetIn := set }

/-- `base->io` and `base->evbase`: the events of every socket, and the sets. -/
structure IoMap where
  io : Socket → Option EvmapIo
  evbase : Win32op

/-- Write the place of a socket in one of the sets, plus one, to its `struct idx_info`. -/
def IoMap.setPos (b : IoMap) (s : Socket) (read : Bool) (pos : ℕ) : IoMap :=
  let ent := (b.io s).map fun ctx => { ctx with fdinfo := ctx.fdinfo.setPosPlus1 read pos }
  { b with io := Function.update b.io s ent }

/-- `grow_fd_sets`. -/
def growFdSets (op : Win32op) (newNumFds : ℕ) : Option Win32op :=
  if newNumFds ≥ op.readsetIn.fdCount ∧ newNumFds ≥ op.writesetIn.fdCount ∧ newNumFds ≥ 1 then
    some { op with resizeOutSets := true, numFdsInFdSets := newNumFds }
  else none

/-- `if (set->fd_count == op->num_fds_in_fd_sets)` the sets grow. -/
def growIfFull (op : Win32op) (read : Bool) : Option Win32op :=
  if (op.set read).fdCount = op.numFdsInFdSets then growFdSets op (op.numFdsInFdSets * 2)
  else some op

/-- `do_fd_set`, for the `struct idx_info` of the socket itself. -/
def doFdSet (b : IoMap) (s : Socket) (read : Bool) : Option (IoMap × ℤ) := do
  let ctx ← b.io s
  if ctx.fdinfo.posPlus1 read > 0 then pure (b, 0)
  else do
    let op ← growIfFull b.evbase read
    let set := op.set read
    if set.fdCount < op.numFdsInFdSets then
      let set' : WinFdSet := ⟨set.fdCount + 1, Function.update set.fdArray set.fdCount s⟩
      let b' : IoMap := { b with evbase := op.withSet read set' }
      pure (b'.setPos s read (set.fdCount + 1), (set.fdCount : ℤ))
    else none

/-- A set of `n` sockets whose last one, which stood at `n`, goes to the place `i`, and is told
its new place if it has an entry. -/
def IoMap.moveLast (b : IoMap) (read : Bool) (n i : ℕ) : IoMap :=
  let s2 := (b.evbase.set read).fdArray n
  let set' : WinFdSet := ⟨n, Function.update (b.evbase.set read).fdArray i s2⟩
  let b : IoMap := { b with evbase := b.evbase.withSet read set' }
  if (b.io s2).isSome then b.setPos s2 read (i + 1) else b

/-- `do_fd_clear`, for the `struct idx_info` of the socket itself. -/
def doFdClear (b : IoMap) (s : Socket) (read : Bool) : Option IoMap := do
  let ctx ← b.io s
  let fdCount := (b.evbase.set read).fdCount
  let posPlus1 := ctx.fdinfo.posPlus1 read
  let b := b.setPos s read 0
  if posPlus1 = 0 then pure b
  else if fdCount = 0 then none
  else if fdCount - 1 ≠ posPlus1 - 1 then pure (b.moveLast read (fdCount - 1) (posPlus1 - 1))
  else
    let set' : WinFdSet := { b.evbase.set read with fdCount := fdCount - 1 }
    pure { b with evbase := b.evbase.withSet read set' }

/-- `if (events & EV_READ)` or `if (events & EV_WRITE)`, then `do_fd_set`. -/
def doFdSetIf (events : Bool) (b : IoMap) (fd : Socket) (read : Bool) : Option (IoMap × ℤ) :=
  if events then doFdSet b fd read else some (b, 0)

/-- `if (events & EV_READ)` or `if (events & EV_WRITE)`, then `do_fd_clear`. -/
def doFdClearIf (events : Bool) (b : IoMap) (fd : Socket) (read : Bool) : Option IoMap :=
  if events then doFdClear b fd read else some b

/-- `win32_add`, for the bits `EV_READ` and `EV_WRITE` of `events`. -/
def win32Add (b : IoMap) (fd : Socket) (read write : Bool) : Option (IoMap × ℤ) := do
  let r ← doFdSetIf read b fd true
  if r.2 < 0 then pure (r.1, -1)
  else do
    let r ← doFdSetIf write r.1 fd false
    pure (r.1, if r.2 < 0 then -1 else 0)

/-- `win32_del`. -/
def win32Del (b : IoMap) (fd : Socket) (read write : Bool) : Option IoMap := do
  let b ← doFdClearIf read b fd true
  doFdClearIf write b fd false

/-! ### `evmap.c` -/

/-- `evmap_io_init`. -/
def evmapIoInit : EvmapIo := ⟨[], 0, 0, ⟨0, 0⟩⟩

/-- `GET_IO_SLOT_AND_CTOR`: `none` when there is no memory for a new entry. -/
def getIoSlotAndCtor (granted : Bool) (b : IoMap) (fd : Socket) : Option (IoMap × EvmapIo) :=
  match b.io fd with
  | some ctx => some (b, ctx)
  | none =>
      if granted then
        some ({ b with io := Function.update b.io fd (some evmapIoInit) }, evmapIoInit)
      else none

/-- Write the counts and the list of a socket. -/
def IoMap.setEvents (b : IoMap) (fd : Socket) (nread nwrite : ℕ) (events : List EventPtr) :
    IoMap :=
  let ent := (b.io fd).map fun ctx =>
    { ctx with nread := nread, nwrite := nwrite, events := events }
  { b with io := Function.update b.io fd ent }

/-- `evmap_io_add`. -/
def evmapIoAdd (granted : Bool) (m : Events) (b : IoMap) (fd : Socket) (ev : EventPtr) :
    Option (IoMap × ℤ) :=
  if fd ≠ (m ev).evFd then none
  else if fd < 0 then some (b, 0)
  else
    match getIoSlotAndCtor granted b fd with
    | none => some (b, -1)
    | some (b, ctx) =>
        let nread := if (m ev).evEvents.read then ctx.nread + 1 else ctx.nread
        let nwrite := if (m ev).evEvents.write then ctx.nwrite + 1 else ctx.nwrite
        let resRead := (m ev).evEvents.read && nread == 1
        let resWrite := (m ev).evEvents.write && nwrite == 1
        if nread > 0xffff ∨ nwrite > 0xffff then some (b, -1)
        else if resRead || resWrite then do
          let r ← win32Add b fd resRead resWrite
          if r.2 = -1 then pure (r.1, -1)
          else pure (r.1.setEvents fd nread nwrite (ctx.events ++ [ev]), 1)
        else some (b.setEvents fd nread nwrite (ctx.events ++ [ev]), 0)

/-- `evmap_io_del`. -/
def evmapIoDel (m : Events) (b : IoMap) (fd : Socket) (ev : EventPtr) : Option (IoMap × ℤ) :=
  if fd < 0 then some (b, 0)
  else if fd ≠ (m ev).evFd then none
  else do
    let ctx ← b.io fd
    if (m ev).evEvents.read ∧ ctx.nread = 0 ∨ (m ev).evEvents.write ∧ ctx.nwrite = 0 then none
    else
      let nread := if (m ev).evEvents.read then ctx.nread - 1 else ctx.nread
      let nwrite := if (m ev).evEvents.write then ctx.nwrite - 1 else ctx.nwrite
      let resRead := (m ev).evEvents.read && nread == 0
      let resWrite := (m ev).evEvents.write && nwrite == 0
      if resRead || resWrite then do
        let b ← win32Del b fd resRead resWrite
        pure (b.setEvents fd nread nwrite (ctx.events.erase ev), 1)
      else pure (b.setEvents fd nread nwrite (ctx.events.erase ev), 0)

/-! ### Sets without gaps -/

@[simp] theorem Win32op.set_withSet (op : Win32op) (read : Bool) (set : WinFdSet) :
    (op.withSet read set).set read = set := by
  cases read <;> rfl

@[simp] theorem Win32op.set_withSet_not (op : Win32op) (read : Bool) (set : WinFdSet) :
    (op.withSet read set).set (!read) = op.set (!read) := by
  cases read <;> rfl

@[simp] theorem Win32op.num_withSet (op : Win32op) (read : Bool) (set : WinFdSet) :
    (op.withSet read set).numFdsInFdSets = op.numFdsInFdSets := by
  cases read <;> rfl

@[simp] theorem IdxInfo.posPlus1_set (ent : IdxInfo) (read : Bool) (pos : ℕ) :
    (ent.setPosPlus1 read pos).posPlus1 read = pos := by
  cases read <;> rfl

@[simp] theorem IdxInfo.posPlus1_set_not (ent : IdxInfo) (read : Bool) (pos : ℕ) :
    (ent.setPosPlus1 read pos).posPlus1 (!read) = ent.posPlus1 (!read) := by
  cases read <;> rfl

/-- The place of a socket in one of the sets, `-1` if it has none. -/
def IoMap.pos (b : IoMap) (read : Bool) (s : Socket) : ℤ :=
  match b.io s with
  | some ctx => ctx.fdinfo.posPlus1 read - 1
  | none => -1

/-- One of the sets, as an array whose elements know their place. -/
def fdSlots (b : IoMap) (read : Bool) : Slots Socket :=
  ⟨(b.evbase.set read).fdArray, b.pos read⟩

/-- The lists and the counts of a socket. -/
def IoMap.lists (b : IoMap) (s : Socket) : Option (List EventPtr × ℕ × ℕ) :=
  (b.io s).map fun ctx => (ctx.events, ctx.nread, ctx.nwrite)

section SetPos

variable (b : IoMap) {s : Socket} (read : Bool) (k : ℕ)

theorem IoMap.io_setPos_self : (b.setPos s read k).io s =
    (b.io s).map fun ctx => { ctx with fdinfo := ctx.fdinfo.setPosPlus1 read k } :=
  Function.update_self ..

theorem IoMap.io_setPos_of_ne {fd : Socket} (h : fd ≠ s) : (b.setPos s read k).io fd = b.io fd :=
  Function.update_of_ne h ..

@[simp] theorem IoMap.evbase_setPos : (b.setPos s read k).evbase = b.evbase := rfl

@[simp] theorem IoMap.lists_setPos : (b.setPos s read k).lists = b.lists := by
  funext fd
  by_cases h : fd = s
  · subst h
    rw [IoMap.lists, IoMap.lists, IoMap.io_setPos_self, Option.map_map]
    rfl
  · rw [IoMap.lists, IoMap.lists, IoMap.io_setPos_of_ne _ _ _ h]

theorem IoMap.pos_setPos {ctx : EvmapIo} (h : b.io s = some ctx) :
    (b.setPos s read k).pos read = Function.update (b.pos read) s (k - 1) := by
  funext fd
  by_cases hfd : fd = s
  · subst hfd
    rw [IoMap.pos, IoMap.io_setPos_self, h]
    simp
  · rw [Function.update_of_ne hfd, IoMap.pos, IoMap.io_setPos_of_ne _ _ _ hfd, IoMap.pos]

@[simp] theorem IoMap.pos_setPos_not : (b.setPos s read k).pos (!read) = b.pos (!read) := by
  funext fd
  by_cases hfd : fd = s
  · subst hfd
    rw [IoMap.pos, IoMap.io_setPos_self, IoMap.pos]
    cases b.io fd <;> simp
  · rw [IoMap.pos, IoMap.io_setPos_of_ne _ _ _ hfd, IoMap.pos]

end SetPos

/-- A set holds the sockets of `S` without gaps, they know their place, and all others know
that they have none. -/
structure FdSet (b : IoMap) (read : Bool) (S : Set Socket) : Prop where
  full : Full (fdSlots b read) (b.evbase.set read).fdCount S
  room : (b.evbase.set read).fdCount ≤ b.evbase.numFdsInFdSets
  out : ∀ s, s ∉ S → b.pos read s = -1

/-- The sets of sockets to be read from and to be written to are `S true` and `S false`. -/
structure Watches (b : IoMap) (S : Bool → Set Socket) : Prop where
  one_le : 1 ≤ b.evbase.numFdsInFdSets
  sets : ∀ read, FdSet b read (S read)

section Watches

variable {b : IoMap} {S : Bool → Set Socket} {s : Socket} {ctx : EvmapIo} {read : Bool}

theorem IoMap.pos_eq (hio : b.io s = some ctx) :
    b.pos read s = (ctx.fdinfo.posPlus1 read : ℤ) - 1 := by
  rw [IoMap.pos, hio]

theorem FdSet.mem_iff {T : Set Socket} (h : FdSet b read T) (hio : b.io s = some ctx) :
    s ∈ T ↔ 0 < ctx.fdinfo.posPlus1 read := by
  have hpos := @IoMap.pos_eq b s ctx read hio
  constructor
  · intro hs
    have hnonneg : 0 ≤ b.pos read s := h.full.pos_nonneg hs
    omega
  · intro hlt
    by_contra hs
    have hout := h.out s hs
    omega

/-- A socket of a set has an entry. -/
theorem FdSet.isSome {T : Set Socket} (h : FdSet b read T) (hs : s ∈ T) : (b.io s).isSome := by
  have hnonneg : 0 ≤ b.pos read s := h.full.pos_nonneg hs
  rw [IoMap.pos] at hnonneg
  cases hio : b.io s with
  | none =>
      simp [hio] at hnonneg
  | some ctx => rfl

/-- What only reads the other set and its places is not concerned. -/
theorem FdSet.congr {b' : IoMap} {T : Set Socket} (h : FdSet b read T)
    (hset : b'.evbase.set read = b.evbase.set read) (hpos : b'.pos read = b.pos read)
    (hnum : b.evbase.numFdsInFdSets ≤ b'.evbase.numFdsInFdSets) : FdSet b' read T := by
  have hslots : fdSlots b' read = fdSlots b read := by rw [fdSlots, fdSlots, hset, hpos]
  refine ⟨?_, hset ▸ h.room.trans hnum, fun x hx => hpos ▸ h.out x hx⟩
  rw [hslots, hset]
  exact h.full

/-- One set changes, and the other one stays. -/
theorem Watches.update (h : Watches b S) {b' : IoMap} {T : Set Socket}
    (hT : FdSet b' read T) (hset : b'.evbase.set (!read) = b.evbase.set (!read))
    (hpos : b'.pos (!read) = b.pos (!read))
    (hnum : b.evbase.numFdsInFdSets ≤ b'.evbase.numFdsInFdSets) :
    Watches b' (Function.update S read T) := by
  refine ⟨h.one_le.trans hnum, fun r => ?_⟩
  by_cases hr : r = read
  · subst hr
    rw [Function.update_self]
    exact hT
  · obtain rfl : r = !read := by cases r <;> cases read <;> simp_all
    rw [Function.update_of_ne hr]
    exact (h.sets _).congr hset hpos hnum

/-- There is room for one more socket, after the sets have grown if need be. -/
theorem Watches.grow (h : Watches b S) (read : Bool) : ∃ op,
    growIfFull b.evbase read = some op ∧ (∀ r, op.set r = b.evbase.set r) ∧
      (op.set read).fdCount < op.numFdsInFdSets ∧
    b.evbase.numFdsInFdSets ≤ op.numFdsInFdSets := by
  have hone := h.one_le
  have hreads : b.evbase.readsetIn.fdCount ≤ _ := (h.sets true).room
  have hwrites : b.evbase.writesetIn.fdCount ≤ _ := (h.sets false).room
  have hroom := (h.sets read).room
  unfold growIfFull
  split
  · rename_i hfull
    refine ⟨_, if_pos ⟨by omega, by omega, by omega⟩, fun r => by cases r <;> rfl, ?_, ?_⟩
    · have hset : (Win32op.set { b.evbase with
          resizeOutSets := true, numFdsInFdSets := b.evbase.numFdsInFdSets * 2 } read).fdCount =
          (b.evbase.set read).fdCount := by cases read <;> rfl
      rw [hset]
      dsimp only
      omega
    · dsimp only
      omega
  · exact ⟨_, rfl, fun _ => rfl, by omega, le_rfl⟩

/-- **Setting.** The socket is in the set afterwards, and the other set stays. -/
theorem Watches.doFdSet (h : Watches b S) (hio : b.io s = some ctx) (read : Bool) :
    ∃ b' r, doFdSet b s read = some (b', r) ∧ 0 ≤ r ∧ b'.lists = b.lists ∧
      Watches b' (Function.update S read (insert s (S read))) := by
  have hset := h.sets read
  by_cases hs : s ∈ S read
  · have hpos := (hset.mem_iff hio).mp hs
    refine ⟨b, 0, ?_, le_rfl, rfl, ?_⟩
    · rw [EventLoop.doFdSet, hio]
      exact if_pos hpos
    · rw [Set.insert_eq_of_mem hs, Function.update_eq_self]
      exact h
  · have hpos : ¬ 0 < ctx.fdinfo.posPlus1 read := fun hlt => hs ((hset.mem_iff hio).mpr hlt)
    obtain ⟨op, hgrow, hsets, hlt, hnum⟩ := h.grow read
    set set' : WinFdSet := ⟨(op.set read).fdCount + 1,
      Function.update (op.set read).fdArray (op.set read).fdCount s⟩ with hset'
    set b₁ : IoMap := { b with evbase := op.withSet read set' } with hb₁
    have hio₁ : b₁.io s = some ctx := hio
    refine ⟨b₁.setPos s read ((op.set read).fdCount + 1), (op.set read).fdCount, ?_,
      Int.natCast_nonneg _, IoMap.lists_setPos .., ?_⟩
    · rw [EventLoop.doFdSet, hio]
      simp only [bind, Option.bind, if_neg hpos, hgrow]
      exact if_pos hlt
    · have hfull := hset.full.hole_push hs
      refine h.update ⟨?_, ?_, fun x hx => ?_⟩ ?_ ?_ ?_
      · have hslots : fdSlots (b₁.setPos s read ((op.set read).fdCount + 1)) read =
            (fdSlots b read).place (b.evbase.set read).fdCount s := by
          rw [fdSlots, IoMap.pos_setPos _ _ _ hio₁, IoMap.evbase_setPos, hb₁, Slots.place]
          simp only [Win32op.set_withSet, hset', hsets, fdSlots]
          congr 2
          push_cast
          omega
        rw [hslots, IoMap.evbase_setPos]
        simp only [hb₁, Win32op.set_withSet, hset', hsets]
        exact hfull.fill
      · rw [IoMap.evbase_setPos]
        simp only [hb₁, Win32op.set_withSet, hset', Win32op.num_withSet]
        omega
      · have hxs : x ≠ s := by
          rintro rfl
          exact hx (Set.mem_insert x _)
        rw [IoMap.pos_setPos _ _ _ hio₁, Function.update_of_ne hxs]
        exact hset.out x fun hmem => hx (Set.mem_insert_of_mem s hmem)
      · rw [IoMap.evbase_setPos, hb₁]
        simp only [Win32op.set_withSet_not, hsets]
      · exact IoMap.pos_setPos_not ..
      · rw [IoMap.evbase_setPos, hb₁]
        simpa only [Win32op.num_withSet] using hnum

/-- **Clearing.** The socket is not in the set afterwards, and the other set stays. -/
theorem Watches.doFdClear (h : Watches b S) (hio : b.io s = some ctx) (read : Bool) :
    ∃ b', doFdClear b s read = some b' ∧ b'.lists = b.lists ∧
      Watches b' (Function.update S read (S read \ {s})) := by
  have hset := h.sets read
  by_cases hs : s ∈ S read
  · have hposlt := (hset.mem_iff hio).mp hs
    have hout : s ∉ S read \ {s} := fun hmem => hmem.2 rfl
    obtain ⟨hole, hi⟩ : ∃ hole, ctx.fdinfo.posPlus1 read = hole + 1 :=
      ⟨ctx.fdinfo.posPlus1 read - 1, by omega⟩
    have hpos : (fdSlots b read).pos s = hole := by
      have heq : b.pos read s = _ := IoMap.pos_eq hio
      rw [hi] at heq
      push_cast at heq
      exact heq.trans (by omega)
    obtain ⟨hlt, hp⟩ := hset.full.p_of_pos hs hpos
    obtain ⟨n, hn⟩ : ∃ n, (b.evbase.set read).fdCount = n + 1 :=
      ⟨(b.evbase.set read).fdCount - 1, by omega⟩
    have hfull := hset.full
    have hroom := hset.room
    rw [hn] at hfull
    have hn' : (b.evbase.set read).fdCount - 1 = n := by omega
    set b₁ := b.setPos s read 0 with hb₁
    have hpos₁ : b₁.pos read = Function.update (b.pos read) s (-1) :=
      (IoMap.pos_setPos _ _ _ hio).trans (by simp)
    have hnot₁ : b₁.pos (!read) = b.pos (!read) := IoMap.pos_setPos_not ..
    have hlists₁ : b₁.lists = b.lists := IoMap.lists_setPos ..
    have hevbase₁ : b₁.evbase = b.evbase := rfl
    by_cases hlast : n = hole
    · subst hlast
      have hstart : EventLoop.doFdClear b s read = some { b₁ with
          evbase := b₁.evbase.withSet read { b₁.evbase.set read with fdCount := n } } := by
        rw [EventLoop.doFdClear, hio]
        simp [hi, hn, hb₁]
      refine ⟨_, hstart, hlists₁, h.update ⟨?_, ?_, fun x hx => ?_⟩ ?_ hnot₁ ?_⟩
      · have hslots : fdSlots { b₁ with
            evbase := b₁.evbase.withSet read { b₁.evbase.set read with fdCount := n } } read =
              (fdSlots b read).forget s := by
          simp only [fdSlots, Slots.forget, Win32op.set_withSet, hevbase₁]
          exact congrArg _ hpos₁
        rw [hslots, Win32op.set_withSet]
        exact (hp ▸ hfull.of_last).forget hout
      · simp only [Win32op.set_withSet, Win32op.num_withSet, hevbase₁]
        omega
      · change b₁.pos read x = -1
        rw [hpos₁]
        by_cases hxs : x = s
        · rw [hxs, Function.update_self]
        · rw [Function.update_of_ne hxs]
          exact hset.out x fun hmem => hx ⟨hmem, hxs⟩
      · simp only [Win32op.set_withSet_not, hevbase₁]
      · simp only [Win32op.num_withSet, hevbase₁, le_refl]
    · have hstart : EventLoop.doFdClear b s read = some (b₁.moveLast read n hole) := by
        rw [EventLoop.doFdClear, hio]
        simp [hi, hn, hb₁, hlast]
      set s2 := (b.evbase.set read).fdArray n with hs2
      have hs2mem : s2 ∈ S read := hfull.mem n n.lt_succ_self
      have hne : s2 ≠ s := fun heq =>
        hlast (hfull.injOn n.lt_succ_self (by omega) (show s2 = _ from heq.trans hp.symm))
      have hio₂ : b₁.io s2 = b.io s2 := IoMap.io_setPos_of_ne _ _ _ hne
      obtain ⟨ctx₂, hctx₂⟩ := Option.isSome_iff_exists.mp (hset.isSome hs2mem)
      set set₂ : WinFdSet := ⟨n, Function.update (b.evbase.set read).fdArray hole s2⟩ with hset₂
      set b₂ : IoMap := { b₁ with evbase := b.evbase.withSet read set₂ } with hb₂
      have hmove : b₁.moveLast read n hole = b₂.setPos s2 read (hole + 1) := by
        have hsome : (b₁.io s2).isSome := by rw [hio₂, hctx₂, Option.isSome_some]
        exact if_pos hsome
      have hpos₂ : (b₂.setPos s2 read (hole + 1)).pos read =
          Function.update (Function.update (b.pos read) s (-1)) s2 hole := by
        have hctx₂' : b₂.io s2 = some ctx₂ := hio₂.trans hctx₂
        have heq : b₂.pos read = b₁.pos read := rfl
        rw [IoMap.pos_setPos _ _ _ hctx₂', heq, hpos₁]
        simp
      rw [hstart, hmove]
      refine ⟨_, rfl, (IoMap.lists_setPos ..).trans hlists₁, h.update ⟨?_, ?_, ?_⟩ ?_ ?_ ?_⟩
      · have hslots : fdSlots (b₂.setPos s2 read (hole + 1)) read =
            ((fdSlots b read).place hole s2).forget s := by
          rw [fdSlots, hpos₂, IoMap.evbase_setPos, hb₂, Function.update_comm hne.symm]
          simp only [Win32op.set_withSet, Slots.forget, Slots.place, fdSlots, hset₂]
        rw [hslots, IoMap.evbase_setPos, hb₂, Win32op.set_withSet, hset₂]
        exact (hp ▸ (hfull.hole_erase (by omega)).fill).forget hout
      · simp only [IoMap.evbase_setPos, hb₂, Win32op.set_withSet, Win32op.num_withSet, hset₂]
        omega
      · intro x hx
        rw [hpos₂]
        by_cases hxs : x = s
        · rw [hxs, Function.update_of_ne hne.symm, Function.update_self]
        · have hx' : x ∉ S read := fun hmem => hx ⟨hmem, hxs⟩
          have hx2 : x ≠ s2 := fun heq => hx' (heq ▸ hs2mem)
          rw [Function.update_of_ne hx2, Function.update_of_ne hxs]
          exact hset.out x hx'
      · simp only [IoMap.evbase_setPos, hb₂, Win32op.set_withSet_not]
      · exact (IoMap.pos_setPos_not ..).trans hnot₁
      · simp only [IoMap.evbase_setPos, hb₂, Win32op.num_withSet, le_refl]
  · have hpos : ¬ 0 < ctx.fdinfo.posPlus1 read := fun hlt => hs ((hset.mem_iff hio).mpr hlt)
    have hzero : ctx.fdinfo.posPlus1 read = 0 := by omega
    have hpos' : (b.setPos s read 0).pos read = b.pos read := by
      rw [IoMap.pos_setPos _ _ _ hio]
      refine Function.update_eq_self_iff.mpr ?_
      rw [IoMap.pos_eq hio, hzero]
    refine ⟨b.setPos s read 0, ?_, IoMap.lists_setPos .., ?_⟩
    · rw [EventLoop.doFdClear, hio]
      exact if_pos hzero
    · rw [Set.sdiff_singleton_eq_self hs]
      exact h.update (hset.congr rfl hpos' le_rfl) rfl (IoMap.pos_setPos_not ..) le_rfl

theorem IoMap.isSome_lists (b : IoMap) (s : Socket) : (b.lists s).isSome = (b.io s).isSome :=
  Option.isSome_map

theorem IoMap.isSome_of_lists {b' : IoMap} (h : b'.lists = b.lists) (s : Socket) :
    (b'.io s).isSome = (b.io s).isSome := by
  rw [← b'.isSome_lists, h, b.isSome_lists]

theorem Watches.doFdSetIf (h : Watches b S) (hio : (b.io s).isSome) (events read : Bool) :
    ∃ b' r, doFdSetIf events b s read = some (b', r) ∧ 0 ≤ r ∧ b'.lists = b.lists ∧
      Watches b' (Function.update S read (if events then insert s (S read) else S read)) := by
  obtain ⟨ctx, hctx⟩ := Option.isSome_iff_exists.mp hio
  cases events with
  | true => exact h.doFdSet hctx read
  | false => exact ⟨b, 0, rfl, le_rfl, rfl, by simpa using h⟩

theorem Watches.doFdClearIf (h : Watches b S) (hio : (b.io s).isSome) (events read : Bool) :
    ∃ b', doFdClearIf events b s read = some b' ∧ b'.lists = b.lists ∧
      Watches b' (Function.update S read (if events then S read \ {s} else S read)) := by
  obtain ⟨ctx, hctx⟩ := Option.isSome_iff_exists.mp hio
  cases events with
  | true => exact h.doFdClear hctx read
  | false => exact ⟨b, rfl, rfl, by simpa using h⟩

/-- The bit for reading or the bit for writing. -/
def bit {α : Type*} (r w : α) (read : Bool) : α := if read then r else w

/-- `win32_add` adds the socket to the sets asked for. -/
theorem Watches.win32Add (h : Watches b S) (hio : (b.io s).isSome) (r w : Bool) :
    ∃ b', win32Add b s r w = some (b', 0) ∧ b'.lists = b.lists ∧
      Watches b' fun d => if bit r w d then insert s (S d) else S d := by
  obtain ⟨b₁, r₁, h₁, hr₁, hlists₁, hw₁⟩ := h.doFdSetIf hio r true
  have hio₁ : (b₁.io s).isSome := by rwa [IoMap.isSome_of_lists hlists₁]
  obtain ⟨b₂, r₂, h₂, hr₂, hlists₂, hw₂⟩ := hw₁.doFdSetIf hio₁ w false
  refine ⟨b₂, ?_, hlists₂.trans hlists₁, ?_⟩
  · simp [EventLoop.win32Add, h₁, h₂, not_lt.mpr hr₁, not_lt.mpr hr₂]
  · convert hw₂ using 1
    funext d
    cases d <;> simp [bit]

/-- `win32_del` takes the socket out of the sets asked for. -/
theorem Watches.win32Del (h : Watches b S) (hio : (b.io s).isSome) (r w : Bool) :
    ∃ b', win32Del b s r w = some b' ∧ b'.lists = b.lists ∧
      Watches b' fun d => if bit r w d then S d \ {s} else S d := by
  obtain ⟨b₁, h₁, hlists₁, hw₁⟩ := h.doFdClearIf hio r true
  have hio₁ : (b₁.io s).isSome := by rwa [IoMap.isSome_of_lists hlists₁]
  obtain ⟨b₂, h₂, hlists₂, hw₂⟩ := hw₁.doFdClearIf hio₁ w false
  refine ⟨b₂, ?_, hlists₂.trans hlists₁, ?_⟩
  · simp [EventLoop.win32Del, h₁, h₂]
  · convert hw₂ using 1
    funext d
    cases d <;> simp [bit]

end Watches

/-! ### Lists and counts -/

/-- The entry of a socket: it lists the events of `I` on the socket, and counts those that
read and those that write. -/
structure Booked (m : Events) (I : Set EventPtr) (fd : Socket) (l : List EventPtr)
    (nread nwrite : ℕ) : Prop where
  nonneg : 0 ≤ fd
  nodup : l.Nodup
  mem_iff : ∀ e, e ∈ l ↔ e ∈ I ∧ (m e).evFd = fd
  nread_eq : nread = l.countP fun e => (m e).evEvents.read
  nwrite_eq : nwrite = l.countP fun e => (m e).evEvents.write

/-- The sockets with an event that reads, or with one that writes. -/
def IoMap.interest (b : IoMap) (read : Bool) : Set Socket :=
  { fd | ∃ l nread nwrite, b.lists fd = some (l, nread, nwrite) ∧ 0 < bit nread nwrite read }

/-- The entries are those of the events of `I`, and `select` watches a socket for exactly what
its events wait for. -/
structure IoMap.Wf (b : IoMap) (m : Events) (I : Set EventPtr) : Prop where
  booked : ∀ fd l nread nwrite, b.lists fd = some (l, nread, nwrite) →
    Booked m I fd l nread nwrite
  all : ∀ e ∈ I, 0 ≤ (m e).evFd → (b.io (m e).evFd).isSome
  watches : Watches b b.interest

section Wf

variable {b : IoMap} {m : Events} {I : Set EventPtr} {ev : EventPtr}

theorem IoMap.lists_eq_none {fd : Socket} : b.lists fd = none ↔ b.io fd = none :=
  Option.map_eq_none_iff

theorem IoMap.lists_setEvents {b : IoMap} {fd : Socket} {nread nwrite : ℕ} {l : List EventPtr}
    (h : (b.io fd).isSome) : (b.setEvents fd nread nwrite l).lists =
      Function.update b.lists fd (some (l, nread, nwrite)) := by
  obtain ⟨ctx, hctx⟩ := Option.isSome_iff_exists.mp h
  funext x
  by_cases hx : x = fd
  · subst hx
    simp [IoMap.lists, IoMap.setEvents, hctx]
  · simp [IoMap.lists, IoMap.setEvents, hx]

theorem IoMap.pos_setEvents {fd : Socket} {nread nwrite : ℕ} {l : List EventPtr} (d : Bool) :
    (b.setEvents fd nread nwrite l).pos d = b.pos d := by
  funext x
  by_cases hx : x = fd
  · subst hx
    cases hio : b.io x <;> simp [IoMap.pos, IoMap.setEvents, hio]
  · simp [IoMap.pos, IoMap.setEvents, hx]

/-- Writing an entry adds none, and removes none. -/
theorem IoMap.isSome_setEvents {b' : IoMap} (hlists : b'.lists = b.lists) {fd : Socket}
    {nread nwrite : ℕ} {l : List EventPtr} (x : Socket) :
    ((b'.setEvents fd nread nwrite l).io x).isSome = (b.io x).isSome := by
  rw [← IoMap.isSome_of_lists hlists]
  by_cases hx : x = fd
  · subst hx
    simp [IoMap.setEvents]
  · simp [IoMap.setEvents, hx]

/-- What does not concern the sets keeps them watched. -/
theorem Watches.congr {S : Bool → Set Socket} {b' : IoMap} (h : Watches b S)
    (hpos : ∀ d, b'.pos d = b.pos d) (hevbase : b'.evbase = b.evbase) : Watches b' S :=
  ⟨hevbase ▸ h.one_le, fun d => (h.sets d).congr (by rw [hevbase]) (hpos d) (by rw [hevbase])⟩

/-- The sockets with events, after the entry of one has been written. -/
theorem IoMap.mem_interest_setEvents {b' : IoMap} (hlists : b'.lists = b.lists) {fd : Socket}
    (hio : (b.io fd).isSome) {l : List EventPtr} {nread nwrite : ℕ} {d : Bool} {x : Socket} :
    x ∈ (b'.setEvents fd nread nwrite l).interest d ↔
      if x = fd then 0 < bit nread nwrite d else x ∈ b.interest d := by
  have hio' : (b'.io fd).isSome := by rwa [IoMap.isSome_of_lists hlists]
  rw [IoMap.interest, Set.mem_ofPred_eq, IoMap.lists_setEvents hio', hlists]
  by_cases hx : x = fd
  · subst hx
    simp
  · rw [if_neg hx, Function.update_of_ne hx]
    rfl

/-- The entry of one socket is written, after the sets have been brought in line with it. -/
theorem IoMap.Wf.setEvents (h : b.Wf m I) {b' : IoMap} (hlists : b'.lists = b.lists)
    {T : Bool → Set Socket} (hw : Watches b' T) {fd : Socket} (hio : (b.io fd).isSome)
    {I' : Set EventPtr} {l : List EventPtr} {nread nwrite : ℕ}
    (hbook : Booked m I' fd l nread nwrite)
    (hI : ∀ e, (m e).evFd ≠ fd → (e ∈ I' ↔ e ∈ I))
    (hT : ∀ d x, x ∈ T d ↔ if x = fd then 0 < bit nread nwrite d else x ∈ b.interest d) :
    (b'.setEvents fd nread nwrite l).Wf m I' := by
  have hio' : (b'.io fd).isSome := by rwa [IoMap.isSome_of_lists hlists]
  have hl : (b'.setEvents fd nread nwrite l).lists =
      Function.update b.lists fd (some (l, nread, nwrite)) := by
    rw [IoMap.lists_setEvents hio', hlists]
  have hinterest : (b'.setEvents fd nread nwrite l).interest = T := by
    funext d
    ext x
    rw [hT d x, IoMap.mem_interest_setEvents hlists hio]
  refine ⟨fun x l' nr nw hx => ?_, fun e he hnonneg => ?_, ?_⟩
  · by_cases hxfd : x = fd
    · subst hxfd
      rw [hl, Function.update_self] at hx
      obtain ⟨rfl, rfl, rfl⟩ : l = l' ∧ nread = nr ∧ nwrite = nw := by simpa using hx
      exact hbook
    · rw [hl, Function.update_of_ne hxfd] at hx
      have hb := h.booked x l' nr nw hx
      refine ⟨hb.nonneg, hb.nodup, fun e => ?_, hb.nread_eq, hb.nwrite_eq⟩
      rw [hb.mem_iff]
      exact and_congr_left fun hfd => (hI e fun heq => hxfd (hfd.symm.trans heq)).symm
  · by_cases hfd : (m e).evFd = fd
    · rw [hfd, ← IoMap.isSome_lists, hl, Function.update_self]
      rfl
    · have hsome := h.all e ((hI e hfd).mp he) hnonneg
      have hsame : (b'.setEvents fd nread nwrite l).io (m e).evFd = b'.io (m e).evFd :=
        Function.update_of_ne hfd ..
      rw [hsame, IoMap.isSome_of_lists hlists]
      exact hsome
  · rw [hinterest]
    exact hw.congr (fun d => IoMap.pos_setEvents d) rfl

theorem Booked.insert {fd : Socket} {l : List EventPtr} {nread nwrite : ℕ}
    (h : Booked m I fd l nread nwrite) (hev : ev ∉ I) (hfd : (m ev).evFd = fd) :
    Booked m (insert ev I) fd (l ++ [ev])
      (if (m ev).evEvents.read then nread + 1 else nread)
      (if (m ev).evEvents.write then nwrite + 1 else nwrite) where
  nonneg := h.nonneg
  nodup := by
    refine List.nodup_append.mpr ⟨h.nodup, List.nodup_singleton ev, fun a ha e he heq => ?_⟩
    rw [List.mem_singleton.mp he] at heq
    exact hev (heq ▸ ((h.mem_iff a).mp ha).1)
  mem_iff e := by
    rw [List.mem_append, List.mem_singleton, h.mem_iff, Set.mem_insert_iff]
    constructor
    · rintro (⟨he, hefd⟩ | rfl)
      · exact ⟨Or.inr he, hefd⟩
      · exact ⟨Or.inl rfl, hfd⟩
    · rintro ⟨rfl | he, hefd⟩
      · exact Or.inr rfl
      · exact Or.inl ⟨he, hefd⟩
  nread_eq := by
    rw [List.countP_append, List.countP_singleton, ← h.nread_eq]
    split <;> rfl
  nwrite_eq := by
    rw [List.countP_append, List.countP_singleton, ← h.nwrite_eq]
    split <;> rfl

/-- The slot that an event finds or gets. -/
theorem IoMap.Wf.getIoSlotAndCtor (h : b.Wf m I) {granted : Bool} {fd : Socket} (hfd : 0 ≤ fd)
    {b₁ : IoMap} {ctx : EvmapIo} (hget : getIoSlotAndCtor granted b fd = some (b₁, ctx)) :
    b₁.Wf m I ∧ b₁.interest = b.interest ∧ b₁.io fd = some ctx ∧
      ∀ x, (b.io x).isSome → (b₁.io x).isSome := by
  unfold EventLoop.getIoSlotAndCtor at hget
  cases hio : b.io fd with
  | some c =>
      rw [hio] at hget
      obtain ⟨rfl, rfl⟩ : b = b₁ ∧ c = ctx := by simpa using hget
      exact ⟨h, rfl, hio, fun _ => id⟩
  | none =>
      rw [hio] at hget
      simp only at hget
      split at hget
      · have hnone : b.lists fd = none := IoMap.lists_eq_none.mpr hio
        set b₂ : IoMap := { b with io := Function.update b.io fd (some evmapIoInit) } with hb₂
        obtain ⟨rfl, rfl⟩ : b₂ = b₁ ∧ evmapIoInit = ctx := by simpa using hget
        have hl : b₂.lists = Function.update b.lists fd (some ([], 0, 0)) := by
          funext x
          by_cases hx : x = fd
          · subst hx
            simp [IoMap.lists, hb₂, evmapIoInit]
          · simp [IoMap.lists, hb₂, hx]
        have hinterest : b₂.interest = b.interest := by
          funext d
          ext x
          rw [IoMap.interest, IoMap.interest, Set.mem_ofPred_eq, Set.mem_ofPred_eq, hl]
          by_cases hx : x = fd
          · subst hx
            cases d <;> simp [hnone, bit]
          · rw [Function.update_of_ne hx]
        refine ⟨⟨fun x l nr nw hx => ?_, fun e he hnonneg => ?_, ?_⟩, hinterest,
          Function.update_self .., fun x hx => ?_⟩
        · by_cases hxfd : x = fd
          · subst hxfd
            rw [hl, Function.update_self] at hx
            obtain ⟨rfl, rfl, rfl⟩ : [] = l ∧ 0 = nr ∧ 0 = nw := by simpa using hx
            refine ⟨hfd, List.nodup_nil, fun e => ?_, rfl, rfl⟩
            refine iff_of_false (List.not_mem_nil) fun ⟨he, hefd⟩ => ?_
            have hsome := h.all e he (hefd ▸ hfd)
            rw [hefd, hio] at hsome
            cases hsome
          · rw [hl, Function.update_of_ne hxfd] at hx
            exact h.booked x l nr nw hx
        · rw [← IoMap.isSome_lists, hl]
          by_cases hefd : (m e).evFd = fd
          · rw [hefd, Function.update_self]
            rfl
          · rw [Function.update_of_ne hefd, IoMap.isSome_lists]
            exact h.all e he hnonneg
        · rw [hinterest]
          refine h.watches.congr (fun d => ?_) rfl
          funext x
          by_cases hx : x = fd
          · subst hx
            cases d <;> simp [IoMap.pos, hb₂, hio, evmapIoInit, IdxInfo.posPlus1]
          · simp [IoMap.pos, hb₂, hx]
        · have hne : x ≠ fd := by
            rintro rfl
            rw [hio] at hx
            cases hx
          simpa [hb₂, hne] using hx
      · cases hget

/-- Who comes to be watched when an event is added. -/
theorem bit_add {r w : Bool} {nread nwrite : ℕ} (d : Bool) :
    0 < bit (if r then nread + 1 else nread) (if w then nwrite + 1 else nwrite) d ↔
      0 < bit nread nwrite d ∨ bit (r && (if r then nread + 1 else nread) == 1)
        (w && (if w then nwrite + 1 else nwrite) == 1) d = true := by
  cases d <;> cases r <;> cases w <;> simp [bit] <;> omega

theorem mem_ite_insert {S : Set Socket} {x : Socket} {c : Bool} :
    (x ∈ if c then insert x S else S) ↔ x ∈ S ∨ c = true := by
  cases c <;> simp

/-- Events on no socket are in no list. -/
theorem IoMap.Wf.of_nonneg (h : b.Wf m I) {I' : Set EventPtr}
    (hI : ∀ e, 0 ≤ (m e).evFd → (e ∈ I' ↔ e ∈ I)) : b.Wf m I' where
  booked fd l nread nwrite hl := by
    have hb := h.booked fd l nread nwrite hl
    refine ⟨hb.nonneg, hb.nodup, fun e => ?_, hb.nread_eq, hb.nwrite_eq⟩
    rw [hb.mem_iff]
    exact and_congr_left fun hfd => (hI e (hfd ▸ hb.nonneg)).symm
  all e he hnonneg := h.all e ((hI e hnonneg).mp he) hnonneg
  watches := h.watches

/-- Nothing but the sockets of the listed events and what they wait for matters. -/
theorem IoMap.Wf.congr_on (h : b.Wf m I) {m' : Events} {I' : Set EventPtr}
    (hfd : ∀ e ∈ I, (m' e).evFd = (m e).evFd)
    (hevents : ∀ e ∈ I, (m' e).evEvents = (m e).evEvents) (hI : I' = I) : b.Wf m' I' := by
  subst hI
  refine ⟨fun fd l nread nwrite hl => ?_, fun e he hnonneg => ?_, h.watches⟩
  · have hb := h.booked fd l nread nwrite hl
    have hmem : ∀ e ∈ l, e ∈ I' := fun e he => ((hb.mem_iff e).mp he).1
    refine ⟨hb.nonneg, hb.nodup, fun e => ?_, ?_, ?_⟩
    · rw [hb.mem_iff]
      exact and_congr_right fun he => by rw [hfd e he]
    · rw [hb.nread_eq]
      exact List.countP_congr fun e he => by rw [hevents e (hmem e he)]
    · rw [hb.nwrite_eq]
      exact List.countP_congr fun e he => by rw [hevents e (hmem e he)]
  · rw [hfd e he] at hnonneg ⊢
    exact h.all e he hnonneg

theorem IoMap.Wf.congr (h : b.Wf m I) {m' : Events} {I' : Set EventPtr}
    (hfd : ∀ e, (m' e).evFd = (m e).evFd) (hevents : ∀ e, (m' e).evEvents = (m e).evEvents)
    (hI : I' = I) : b.Wf m' I' :=
  h.congr_on (fun e _ => hfd e) (fun e _ => hevents e) hI

/-- **Adding.** Either nothing happens to the entries and the sets, or the event is in; and
`select` watches the same sockets as before unless the result is `1`. -/
theorem IoMap.Wf.add (h : b.Wf m I) (hev : ev ∉ I) (granted : Bool) :
    ∃ b' r, evmapIoAdd granted m b (m ev).evFd ev = some (b', r) ∧
      (r = -1 ∧ b'.Wf m I ∨ (r = 0 ∨ r = 1) ∧ b'.Wf m (insert ev I)) ∧
      (r ≠ 1 → b'.interest = b.interest) ∧ ∀ x, (b.io x).isSome → (b'.io x).isSome := by
  rw [evmapIoAdd, if_neg fun hne => hne rfl]
  by_cases hneg : (m ev).evFd < 0
  · rw [if_pos hneg]
    refine ⟨b, 0, rfl, Or.inr ⟨Or.inl rfl, h.of_nonneg fun e hnonneg => ?_⟩, fun _ => rfl,
      fun _ => id⟩
    refine ⟨fun he => he.resolve_left ?_, fun he => Or.inr he⟩
    rintro rfl
    exact absurd hneg (not_lt.mpr hnonneg)
  · rw [if_neg hneg]
    have hfd := not_lt.mp hneg
    cases hget : EventLoop.getIoSlotAndCtor granted b (m ev).evFd with
    | none => exact ⟨b, -1, rfl, Or.inl ⟨rfl, h⟩, fun _ => rfl, fun _ => id⟩
    | some p =>
        obtain ⟨b₁, ctx⟩ := p
        obtain ⟨h₁, hinterest₁, hio₁, hkeep₁⟩ := h.getIoSlotAndCtor hfd hget
        have hl₁ : b₁.lists (m ev).evFd = some (ctx.events, ctx.nread, ctx.nwrite) := by
          rw [IoMap.lists, hio₁]
          rfl
        have hsome₁ : (b₁.io (m ev).evFd).isSome := by rw [hio₁]; rfl
        have hbook := (h₁.booked _ _ _ _ hl₁).insert hev rfl
        have hI : ∀ e, (m e).evFd ≠ (m ev).evFd → (e ∈ Insert.insert ev I ↔ e ∈ I) := by
          intro e hne
          refine ⟨fun he => he.resolve_left ?_, fun he => Or.inr he⟩
          rintro rfl
          exact hne rfl
        simp only
        generalize hnread : (if (m ev).evEvents.read then ctx.nread + 1 else ctx.nread) = nread
          at hbook ⊢
        generalize hnwrite : (if (m ev).evEvents.write then ctx.nwrite + 1 else ctx.nwrite) =
          nwrite at hbook ⊢
        have hT : ∀ d x, x ∈ (if bit ((m ev).evEvents.read && nread == 1)
            ((m ev).evEvents.write && nwrite == 1) d then Insert.insert (m ev).evFd
              (b₁.interest d) else b₁.interest d) ↔
            if x = (m ev).evFd then 0 < bit nread nwrite d else x ∈ b₁.interest d := by
          intro d x
          have hat : (m ev).evFd ∈ b₁.interest d ↔ 0 < bit ctx.nread ctx.nwrite d := by
            rw [IoMap.interest, Set.mem_ofPred_eq, hl₁]
            simp
          by_cases hx : x = (m ev).evFd
          · subst hx
            rw [if_pos rfl, ← hnread, ← hnwrite, bit_add, ← hat, mem_ite_insert]
          · rw [if_neg hx]
            split <;> simp [hx]
        by_cases hmany : nread > 0xffff ∨ nwrite > 0xffff
        · rw [if_pos hmany]
          exact ⟨b₁, -1, rfl, Or.inl ⟨rfl, h₁⟩, fun _ => hinterest₁, hkeep₁⟩
        · rw [if_neg hmany]
          obtain ⟨b₂, hadd, hlists, hw⟩ := h₁.watches.win32Add hsome₁
            ((m ev).evEvents.read && nread == 1) ((m ev).evEvents.write && nwrite == 1)
          by_cases hres : ((m ev).evEvents.read && nread == 1 ||
              (m ev).evEvents.write && nwrite == 1) = true
          · rw [if_pos hres, hadd]
            exact ⟨_, 1, rfl, Or.inr ⟨Or.inr rfl, h₁.setEvents hlists hw hsome₁ hbook hI hT⟩,
              fun hne => absurd rfl hne,
              fun x hx => (IoMap.isSome_setEvents hlists x).trans (hkeep₁ x hx)⟩
          · rw [if_neg hres]
            obtain ⟨hr, hw'⟩ : ((m ev).evEvents.read && nread == 1) = false ∧
                ((m ev).evEvents.write && nwrite == 1) = false := by
              simpa using hres
            rw [hr, hw'] at hadd
            obtain rfl : b₁ = b₂ := by simpa [EventLoop.win32Add, EventLoop.doFdSetIf] using hadd
            refine ⟨_, 0, rfl, Or.inr ⟨Or.inl rfl, h₁.setEvents rfl hw hsome₁ hbook hI hT⟩,
              fun _ => ?_, fun x hx => (IoMap.isSome_setEvents rfl x).trans (hkeep₁ x hx)⟩
            rw [← hinterest₁]
            funext d
            ext x
            rw [IoMap.mem_interest_setEvents rfl hsome₁, ← hT d x, hr, hw']
            cases d <;> rfl

theorem countP_erase_of_mem {l : List EventPtr} {p : EventPtr → Bool} (hl : ev ∈ l) :
    (l.erase ev).countP p = if p ev then l.countP p - 1 else l.countP p := by
  rw [List.countP_erase]
  cases p ev <;> simp [hl]

theorem Booked.erase {fd : Socket} {l : List EventPtr} {nread nwrite : ℕ}
    (h : Booked m I fd l nread nwrite) (hev : ev ∈ I) (hfd : (m ev).evFd = fd) :
    Booked m (I \ {ev}) fd (l.erase ev)
      (if (m ev).evEvents.read then nread - 1 else nread)
      (if (m ev).evEvents.write then nwrite - 1 else nwrite) where
  nonneg := h.nonneg
  nodup := h.nodup.erase ev
  mem_iff e := by
    rw [h.nodup.mem_erase_iff, h.mem_iff]
    exact ⟨fun ⟨hne, he, hefd⟩ => ⟨⟨he, hne⟩, hefd⟩, fun ⟨⟨he, hne⟩, hefd⟩ => ⟨hne, he, hefd⟩⟩
  nread_eq := by
    rw [countP_erase_of_mem ((h.mem_iff ev).mpr ⟨hev, hfd⟩), ← h.nread_eq]
  nwrite_eq := by
    rw [countP_erase_of_mem ((h.mem_iff ev).mpr ⟨hev, hfd⟩), ← h.nwrite_eq]

/-- An event that reads is counted among those that read, and one that writes likewise. -/
theorem Booked.pos {fd : Socket} {l : List EventPtr} {nread nwrite : ℕ}
    (h : Booked m I fd l nread nwrite) (hev : ev ∈ I) (hfd : (m ev).evFd = fd) :
    ((m ev).evEvents.read = true → 0 < nread) ∧ ((m ev).evEvents.write = true → 0 < nwrite) := by
  have hmem := (h.mem_iff ev).mpr ⟨hev, hfd⟩
  rw [h.nread_eq, h.nwrite_eq]
  exact ⟨fun hr => List.countP_pos_iff.mpr ⟨ev, hmem, hr⟩,
    fun hw => List.countP_pos_iff.mpr ⟨ev, hmem, hw⟩⟩

/-- Who is still watched when an event is deleted. -/
theorem bit_del {r w : Bool} {nread nwrite : ℕ} (hr : r = true → 0 < nread)
    (hw : w = true → 0 < nwrite) (d : Bool) :
    0 < bit (if r then nread - 1 else nread) (if w then nwrite - 1 else nwrite) d ↔
      0 < bit nread nwrite d ∧ bit (r && (if r then nread - 1 else nread) == 0)
        (w && (if w then nwrite - 1 else nwrite) == 0) d = false := by
  cases d <;> cases r <;> cases w <;> simp [bit] at * <;> omega

/-- **Deleting.** The event is out, and no socket comes to be watched. -/
theorem IoMap.Wf.del (h : b.Wf m I) (hev : ev ∈ I) :
    ∃ b' r, evmapIoDel m b (m ev).evFd ev = some (b', r) ∧ (r = 0 ∨ r = 1) ∧
      b'.Wf m (I \ {ev}) ∧ (∀ d, b'.interest d ⊆ b.interest d) ∧
      ∀ x, (b.io x).isSome → (b'.io x).isSome := by
  rw [evmapIoDel]
  by_cases hneg : (m ev).evFd < 0
  · rw [if_pos hneg]
    refine ⟨b, 0, rfl, Or.inl rfl, h.of_nonneg fun e hnonneg => ?_, fun _ => subset_rfl,
      fun _ => id⟩
    refine ⟨And.left, fun he => ⟨he, ?_⟩⟩
    rintro rfl
    exact absurd hneg (not_lt.mpr hnonneg)
  · rw [if_neg hneg, if_neg fun hne => hne rfl]
    have hsome := h.all ev hev (not_lt.mp hneg)
    obtain ⟨ctx, hio⟩ := Option.isSome_iff_exists.mp hsome
    have hl : b.lists (m ev).evFd = some (ctx.events, ctx.nread, ctx.nwrite) := by
      rw [IoMap.lists, hio]
      rfl
    have hbooked := h.booked _ _ _ _ hl
    obtain ⟨hread, hwrite⟩ := hbooked.pos hev rfl
    have hbook := hbooked.erase hev rfl
    have hI : ∀ e, (m e).evFd ≠ (m ev).evFd → (e ∈ I \ {ev} ↔ e ∈ I) := by
      intro e hne
      refine ⟨And.left, fun he => ⟨he, ?_⟩⟩
      rintro rfl
      exact hne rfl
    have hbit := bit_del hread hwrite
    rw [hio]
    simp only [bind, Option.bind]
    rw [if_neg (by
      rintro (⟨hr, hzero⟩ | ⟨hw, hzero⟩)
      · exact absurd hzero (hread hr).ne'
      · exact absurd hzero (hwrite hw).ne')]
    generalize hnread : (if (m ev).evEvents.read then ctx.nread - 1 else ctx.nread) = nread
      at hbook hbit ⊢
    generalize hnwrite : (if (m ev).evEvents.write then ctx.nwrite - 1 else ctx.nwrite) = nwrite
      at hbook hbit ⊢
    obtain ⟨b₂, hdel, hlists, hw⟩ := h.watches.win32Del hsome
      ((m ev).evEvents.read && nread == 0) ((m ev).evEvents.write && nwrite == 0)
    have hT : ∀ d x, x ∈ (if bit ((m ev).evEvents.read && nread == 0)
        ((m ev).evEvents.write && nwrite == 0) d then b.interest d \ {(m ev).evFd}
          else b.interest d) ↔
        if x = (m ev).evFd then 0 < bit nread nwrite d else x ∈ b.interest d := by
      intro d x
      have hat : (m ev).evFd ∈ b.interest d ↔ 0 < bit ctx.nread ctx.nwrite d := by
        rw [IoMap.interest, Set.mem_ofPred_eq, hl]
        simp
      by_cases hx : x = (m ev).evFd
      · subst hx
        rw [if_pos rfl, hbit, ← hat]
        split <;> simp_all
      · rw [if_neg hx]
        split <;> simp [hx]
    have hsub : ∀ {b₁ : IoMap}, b₁.lists = b.lists → ∀ d,
        (b₁.setEvents (m ev).evFd nread nwrite (ctx.events.erase ev)).interest d ⊆
          b.interest d := by
      intro b₁ hlists₁ d x hx
      rw [IoMap.mem_interest_setEvents hlists₁ hsome, ← hT d x] at hx
      split at hx
      · exact hx.1
      · exact hx
    by_cases hres : ((m ev).evEvents.read && nread == 0 ||
        (m ev).evEvents.write && nwrite == 0) = true
    · rw [if_pos hres, hdel]
      exact ⟨_, 1, rfl, Or.inr rfl, h.setEvents hlists hw hsome hbook hI hT, hsub hlists,
        fun x hx => (IoMap.isSome_setEvents hlists x).trans hx⟩
    · rw [if_neg hres]
      obtain ⟨hr, hw'⟩ : ((m ev).evEvents.read && nread == 0) = false ∧
          ((m ev).evEvents.write && nwrite == 0) = false := by
        simpa using hres
      rw [hr, hw'] at hdel
      obtain rfl : b = b₂ := by simpa [EventLoop.win32Del, EventLoop.doFdClearIf] using hdel
      exact ⟨_, 0, rfl, Or.inl rfl, h.setEvents rfl hw hsome hbook hI hT, hsub rfl,
        fun x hx => (IoMap.isSome_setEvents rfl x).trans hx⟩

end Wf

end EventLoop

end IocpEcho
