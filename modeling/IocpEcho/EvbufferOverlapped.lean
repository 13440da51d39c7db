import IocpEcho.Evbuffer

/-!
# Overlapped Reads and Writes of an Evbuffer

`LibEvent/Source/buffer_iocp.c`: an overlapped read hands the free space at the end of an
evbuffer to `WSARecv`, an overlapped write hands the data at its front to `WSASend`. Until the
completion is committed the chains involved are pinned, and one end of the buffer is frozen.

The result of `WSARecv` and `WSASend` is a parameter: whether the operation is under way, or
has failed at once. What the kernel does with the vectors while the operation is under way is
not part of these functions.
-/

namespace IocpEcho

open Regions

/-- A `struct evbuffer_overlapped`; `buffers` are its first `n_buffers` vectors. -/
structure EvbufferOverlapped where
  buffer : Evbuffer
  readInProgress : Bool
  writeInProgress : Bool
  firstPinned : Option ℕ
  buffers : List (Region ℕ)

/-- `EVBUFFER_MEM_PINNED_R` or `EVBUFFER_MEM_PINNED_W`. -/
inductive PinFlag
  | memPinnedR
  | memPinnedW
  deriving DecidableEq

namespace EvbufferChain

/-- `chain->flags & flag`. -/
def has (c : EvbufferChain) : PinFlag → Bool
  | .memPinnedR => c.memPinnedR
  | .memPinnedW => c.memPinnedW

/-- Set or clear a flag. -/
def mark (c : EvbufferChain) (value : Bool) : PinFlag → EvbufferChain
  | .memPinnedR => { c with memPinnedR := value }
  | .memPinnedW => { c with memPinnedW := value }

end EvbufferChain

/-- `_evbuffer_chain_pin` on every chain of a list. -/
def pinAll (flag : PinFlag) : List EvbufferChain → Option (List EvbufferChain)
  | [] => some []
  | c :: cs => if c.has flag then none else (pinAll flag cs).map fun cs => c.mark true flag :: cs

/-- The loop of `pin_release`: `_evbuffer_chain_unpin` on the next `n` chains. -/
def unpinLoop (flag : PinFlag) : ℕ → List EvbufferChain → Option (List EvbufferChain)
  | 0, cs => some cs
  | _ + 1, [] => none
  | n + 1, c :: cs =>
      if c.has flag then (unpinLoop flag n cs).map fun cs => c.mark false flag :: cs else none

namespace Evbuffer

/-- `_evbuffer_incref`. -/
def incref (buf : Evbuffer) : Evbuffer :=
  { buf with refcnt := buf.refcnt + 1 }

/-- `_evbuffer_decref_and_unlock`: the buffer is destroyed with its last reference. -/
def decrefAndUnlock (buf : Evbuffer) : Option Evbuffer :=
  if buf.refcnt = 0 then none
  else if 1 < buf.refcnt then some { buf with refcnt := buf.refcnt - 1 }
  else some { buf.freeAll buf.chains with before := [], after := [], refcnt := 0 }

/-- All chains that `next` pointers lead through, those that are dangling first. -/
def linked (buf : Evbuffer) : List EvbufferChain :=
  buf.dangling ++ buf.chains

/-- New fields for the linked chains. A chain that is dangling and no longer pinned is
freed. -/
def relink (buf : Evbuffer) (cs : List EvbufferChain) : Evbuffer :=
  { buf with
    dangling := (cs.take buf.dangling.length).filter EvbufferChain.pinned
    before := (cs.drop buf.dangling.length).take buf.before.length
    after := (cs.drop buf.dangling.length).drop buf.before.length }

end Evbuffer

namespace EvbufferOverlapped

/-- `pin_release`. -/
def pinRelease (eo : EvbufferOverlapped) (flag : PinFlag) : Option EvbufferOverlapped :=
  match eo.firstPinned with
  | none => if eo.buffers = [] then some eo else none
  | some addr =>
      let passed := eo.buffer.linked.takeWhile fun c => c.addr ≠ addr
      let rest := eo.buffer.linked.dropWhile fun c => c.addr ≠ addr
      (unpinLoop flag eo.buffers.length rest).map fun rest =>
        { eo with buffer := eo.buffer.relink (passed ++ rest) }

/-- `evbuffer_overlapped_new`, with a callback. -/
def new (mem : ℕ → ℕ → Byte) : EvbufferOverlapped where
  buffer := ⟨mem, [], [], 0, 0, 0, false, false, 1, [], 0, []⟩
  readInProgress := false
  writeInProgress := false
  firstPinned := none
  buffers := []

/-- `MAX_WSABUFS`. -/
def maxWsabufs : ℕ := 16

/-! ### Reading -/

/-- The end of `evbuffer_launch_read`, from the pinning on: `rest` are the chains from
`*chainp` on, `front` those between `*last_with_datap` and them. -/
def receive (wsaRecv : Bool) (front rest : List EvbufferChain) (vecs : List (Region ℕ))
    (eo : EvbufferOverlapped) : Option (ℤ × EvbufferOverlapped) :=
  (pinAll .memPinnedR rest).bind fun pinned =>
    if pinned.length = vecs.length then
      let eo := { eo with
        buffer := { eo.buffer with after := front ++ pinned }.incref
        firstPinned := pinned.head?.map EvbufferChain.addr
        buffers := vecs }
      if wsaRecv then some (0, { eo with readInProgress := true })
      else
        (eo.pinRelease .memPinnedR).bind fun eo =>
          ({ eo.buffer with freezeEnd := false }.decrefAndUnlock).map fun buf =>
            (-1, { eo with buffer := buf })
    else none

/-- `evbuffer_launch_read`; `malloc` and `wsaRecv` are whether the allocation and the
operation succeed. -/
def evbufferLaunchRead (P : Platform) (malloc wsaRecv : Bool) (atMost : ℕ)
    (eo : EvbufferOverlapped) : Option (ℤ × EvbufferOverlapped) :=
  if eo.writeInProgress then none
  else if eo.buffer.freezeEnd || eo.readInProgress then some (-1, eo)
  else
    let eo := { eo with firstPinned := none, buffers := [] }
    (eo.buffer.expandFast P malloc atMost maxWsabufs).bind fun r =>
      if r.1 = -1 then some (-1, { eo with buffer := r.2 })
      else
        let buf := { r.2 with freezeEnd := true }
        (buf.readSetupVecs atMost maxWsabufs true).bind fun v =>
          let front := if v.1 then buf.after.take 1 else []
          let rest := if v.1 then buf.after.drop 1 else buf.after
          { eo with buffer := buf }.receive wsaRecv front rest v.2

/-- The loop of `evbuffer_commit_read`, from `*chainp` on: the chains that got bytes, and the
others. -/
def commitLoop : List (Region ℕ) → ℕ → List EvbufferChain →
    Option (List EvbufferChain × List EvbufferChain)
  | [], _, cs => some ([], cs)
  | b :: bs, remaining, cs =>
      if remaining = 0 then some ([], cs)
      else
        match cs with
        | [] => none
        | c :: cs =>
            let len := min remaining b.len
            (commitLoop bs (remaining - len) cs).map fun r => (c.extend len :: r.1, r.2)

/-- The new cut of the list of chains: the last chain that got bytes is
`*last_with_datap`. -/
def advanceLast (front : List EvbufferChain) (r : List EvbufferChain × List EvbufferChain)
    (buf : Evbuffer) : Evbuffer :=
  match r.1.getLast? with
  | none => buf
  | some last =>
      { buf with before := buf.before ++ front ++ r.1.dropLast, after := last :: r.2 }

/-- `evbuffer_commit_read` from the loop on: `rest` are the chains from `*chainp` on, `front`
those between `*last_with_datap` and them. -/
def countIn (nBytes : ℕ) (front rest : List EvbufferChain) (eo : EvbufferOverlapped) :
    Option EvbufferOverlapped :=
  (commitLoop eo.buffers nBytes rest).bind fun r =>
    ({ eo with buffer := advanceLast front r eo.buffer }.pinRelease .memPinnedR).bind fun eo =>
      (eo.buffer.added nBytes).invokeCallbacks.decrefAndUnlock.map fun buf =>
        { eo with buffer := buf, readInProgress := false }

/-- `evbuffer_commit_read`. -/
def evbufferCommitRead (nBytes : ℕ) (eo : EvbufferOverlapped) : Option EvbufferOverlapped :=
  if !eo.readInProgress || eo.writeInProgress then none
  else
    let eo := { eo with buffer := { eo.buffer with freezeEnd := false } }
    match eo.buffer.after with
    | [] => none
    | c :: cs => if c.memPinnedR then eo.countIn nBytes [] (c :: cs) else eo.countIn nBytes [c] cs

/-! ### Writing -/

/-- The loop of `evbuffer_launch_write`: the chains after pinning, and the vectors. -/
def pinData : List EvbufferChain → ℕ → ℕ → Option (List EvbufferChain × List (Region ℕ))
  | cs, 0, _ => some (cs, [])
  | [], _ + 1, _ => some ([], [])
  | c :: cs, avail + 1, atMost =>
      if c.memPinnedW then none
      else if c.off < atMost then
        (pinData cs avail (atMost - c.off)).map fun r =>
          (c.mark true .memPinnedW :: r.1, c.data :: r.2)
      else some (c.mark true .memPinnedW :: cs, [⟨c.addr, c.misalign, atMost⟩])

/-- `evbuffer_launch_write`; `wsaSend` is whether the operation succeeds. -/
def evbufferLaunchWrite (wsaSend : Bool) (atMost : ℤ) (eo : EvbufferOverlapped) :
    Option (ℤ × EvbufferOverlapped) :=
  if eo.readInProgress then none
  else if eo.buffer.freezeStart || eo.writeInProgress then some (-1, eo)
  else if eo.buffer.totalLen = 0 then some (0, eo)
  else
    let atMost := if atMost < 0 ∨ (eo.buffer.totalLen : ℤ) < atMost then eo.buffer.totalLen
      else atMost.toNat
    let buf := { eo.buffer with freezeStart := true }
    (pinData buf.chains maxWsabufs atMost).bind fun r =>
      let eo := { eo with
        buffer := { buf with
          before := r.1.take buf.before.length
          after := r.1.drop buf.before.length }.incref
        firstPinned := buf.chains.head?.map EvbufferChain.addr
        buffers := r.2 }
      if wsaSend then some (0, { eo with writeInProgress := true })
      else
        (eo.pinRelease .memPinnedW).bind fun eo =>
          ({ eo.buffer with freezeStart := false }.decrefAndUnlock).map fun buf =>
            (-1, { eo with buffer := buf })

/-- `evbuffer_commit_write`. -/
def evbufferCommitWrite (nBytes : ℕ) (eo : EvbufferOverlapped) : Option EvbufferOverlapped :=
  if !eo.writeInProgress || eo.readInProgress then none
  else
    ({ eo.buffer with freezeStart := false }.evbufferDrain nBytes).bind fun d =>
      ({ eo with buffer := d.2 }.pinRelease .memPinnedW).bind fun eo =>
        eo.buffer.decrefAndUnlock.map fun buf =>
          { eo with buffer := buf, writeInProgress := false }

end EvbufferOverlapped

end IocpEcho
