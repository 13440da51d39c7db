import IocpEcho.Regions
import IocpEcho.Reply

/-!
# The Chains of an Evbuffer

An `evbuffer` (`LibEvent/Source/buffer.c`) is a linked list of chains. A chain owns a block of
memory; its data starts `misalign` bytes into the block and is `off` bytes long. This module
embeds the functions that the overlapped bufferevents of the server reach: appending,
copying out, draining, and making room for a read.

The list of chains is cut in two by `last_with_datap`: that pointer points at the `next` field
of the last chain of `before` (at `buf->first` when there is none), and `*last_with_datap` is
the first chain of `after`. `first` and `last` are the ends of `before ++ after`. A chain that
is freed while it is pinned leaves the list but not the memory; `dangling` keeps these in the
order in which their `next` pointers still lead from one to the other and on to `first`.

`none` stands for what must not happen: a failed `EVUTIL_ASSERT`, a null pointer followed, or
a `memcpy` that runs past the end of a block. The bytes of all blocks are one memory, `mem`,
that the kernel can write to as well.
-/

namespace IocpEcho

open Regions

/-- The sizes that depend on the platform: `EV_SIZE_MAX`, `EVBUFFER_CHAIN_MAX`,
`EVBUFFER_CHAIN_SIZE` and `MIN_BUFFER_SIZE`. -/
structure Platform where
  sizeMax : ℕ
  chainMax : ℕ
  chainSize : ℕ
  minBufferSize : ℕ
  minBufferSize_pos : 0 < minBufferSize

/-- A `struct evbuffer_chain` with the address of its block, and its three flags. -/
structure EvbufferChain where
  addr : ℕ
  bufferLen : ℕ
  misalign : ℕ
  off : ℕ
  memPinnedR : Bool
  memPinnedW : Bool
  dangling : Bool
  deriving DecidableEq

/-- What a callback of an evbuffer is told. -/
structure EvbufferCbInfo where
  origSize : ℕ
  nAdded : ℕ
  nDeleted : ℕ
  deriving DecidableEq

/-- A `struct evbuffer`, with the memory its chains point into and what its callbacks have
been told. -/
structure Evbuffer where
  mem : ℕ → ℕ → Byte
  before : List EvbufferChain
  after : List EvbufferChain
  totalLen : ℕ
  nAddForCb : ℕ
  nDelForCb : ℕ
  freezeStart : Bool
  freezeEnd : Bool
  refcnt : ℕ
  dangling : List EvbufferChain
  nextAddr : ℕ
  infos : List EvbufferCbInfo

/-! ### Chains -/

namespace EvbufferChain

/-- The data of a chain. -/
def data (c : EvbufferChain) : Region ℕ :=
  ⟨c.addr, c.misalign, c.off⟩

/-- `CHAIN_SPACE_LEN`. -/
def spaceLen (c : EvbufferChain) : ℕ :=
  c.bufferLen - (c.misalign + c.off)

/-- `CHAIN_PINNED`. -/
def pinned (c : EvbufferChain) : Bool :=
  c.memPinnedR || c.memPinnedW

/-- `evbuffer_chain_should_realign`. -/
def shouldRealign (c : EvbufferChain) (datlen : ℕ) : Bool :=
  datlen ≤ c.bufferLen - c.off && c.off < c.bufferLen / 2 && c.off ≤ 2048

/-- A chain that has lost its first `n` bytes. -/
def advance (c : EvbufferChain) (n : ℕ) : EvbufferChain :=
  { c with misalign := c.misalign + n, off := c.off - n }

/-- A chain with `n` more bytes at its end. -/
def extend (c : EvbufferChain) (n : ℕ) : EvbufferChain :=
  { c with off := c.off + n }

end EvbufferChain

/-- The loop `while (to_alloc < size) to_alloc <<= 1` of `evbuffer_chain_new`. It ends after
at most `size` rounds. -/
def doubleTo (size : ℕ) : ℕ → ℕ → ℕ
  | 0, toAlloc => toAlloc
  | rounds + 1, toAlloc => if toAlloc < size then doubleTo size rounds (toAlloc * 2) else toAlloc

/-- `evbuffer_chain_new`; `malloc` is whether `mm_malloc` succeeds, `addr` what it returns. -/
def evbufferChainNew (P : Platform) (malloc : Bool) (addr size : ℕ) : Option EvbufferChain :=
  if P.chainMax - P.chainSize < size then none
  else
    let size := size + P.chainSize
    let toAlloc := if size < P.chainMax / 2 then doubleTo size size P.minBufferSize else size
    if malloc then some ⟨addr, toAlloc - P.chainSize, 0, 0, false, false, false⟩ else none

/-! ### The list of chains -/

namespace Evbuffer

/-- The chains from `first` to `last`. -/
def chains (buf : Evbuffer) : List EvbufferChain :=
  buf.before ++ buf.after

/-- The bytes in the buffer. -/
def contents (buf : Evbuffer) : List Byte :=
  slices buf.mem (buf.chains.map EvbufferChain.data)

/-- `memcpy(chain->buffer + pos, data, …)`. -/
def memcpy (buf : Evbuffer) (chain : EvbufferChain) (pos : ℕ) (data : List Byte) :
    Option Evbuffer :=
  if pos + data.length ≤ chain.bufferLen then
    some { buf with mem := write buf.mem chain.addr pos data }
  else none

/-- Change the fields of `last`. -/
def setLast (buf : Evbuffer) (chain : EvbufferChain) : Evbuffer :=
  match buf.after with
  | [] => { buf with before := buf.before.dropLast ++ [chain] }
  | _ :: _ => { buf with after := buf.after.dropLast ++ [chain] }

/-- `evbuffer_chain_free` on every chain of a list. -/
def freeAll (buf : Evbuffer) (victims : List EvbufferChain) : Evbuffer :=
  { buf with
    dangling := buf.dangling ++
      (victims.filter EvbufferChain.pinned).map fun c => { c with dangling := true } }

/-- `evbuffer_invoke_callbacks`, for a buffer whose callbacks are not deferred. -/
def invokeCallbacks (buf : Evbuffer) : Evbuffer :=
  if buf.nAddForCb = 0 ∧ buf.nDelForCb = 0 then buf
  else
    { buf with
      nAddForCb := 0
      nDelForCb := 0
      infos := buf.infos ++
        [⟨buf.totalLen + buf.nDelForCb - buf.nAddForCb, buf.nAddForCb, buf.nDelForCb⟩] }

/-- `n` bytes more in `total_len` and `n_add_for_cb`. -/
def added (buf : Evbuffer) (n : ℕ) : Evbuffer :=
  { buf with totalLen := buf.totalLen + n, nAddForCb := buf.nAddForCb + n }

/-- `evbuffer_chain_insert`. -/
def chainInsert (buf : Evbuffer) (chain : EvbufferChain) : Option Evbuffer :=
  let buf := { buf with totalLen := buf.totalLen + chain.off }
  match buf.after with
  | [] => if buf.before = [] then some { buf with after := [chain] } else none
  | _ :: _ =>
      let kept := buf.after.takeWhile fun c => c.off ≠ 0 || c.pinned
      let victims := buf.after.dropWhile fun c => c.off ≠ 0 || c.pinned
      if victims = [] then
        if chain.off = 0 then some { buf with after := buf.after ++ [chain] }
        else some { buf with before := buf.before ++ buf.after, after := [chain] }
      else if victims.all fun c => c.off = 0 then
        some { buf.freeAll victims with after := kept ++ [chain] }
      else none

/-! ### Appending -/

/-- `evbuffer_chain_align`. -/
def chainAlign (buf : Evbuffer) (chain : EvbufferChain) : Option (Evbuffer × EvbufferChain) :=
  if chain.pinned then none
  else (buf.memcpy chain 0 (chain.data.cells buf.mem)).map fun b =>
    (b, { chain with misalign := 0 })

/-- `evbuffer_add` from the point where there is a last chain. -/
def addToLast (P : Platform) (malloc : Bool) (buf : Evbuffer) (chain : EvbufferChain)
    (data : List Byte) : Option (ℤ × Evbuffer) :=
  let datlen := data.length
  let remain := chain.bufferLen - chain.misalign - chain.off
  if datlen ≤ remain then
    (buf.memcpy chain (chain.misalign + chain.off) data).map fun b =>
      (0, ((b.setLast (chain.extend datlen)).added datlen).invokeCallbacks)
  else if !chain.pinned && chain.shouldRealign datlen then
    (buf.chainAlign chain).bind fun p =>
      (p.1.memcpy p.2 p.2.off data).map fun b =>
        (0, ((b.setLast (p.2.extend datlen)).added datlen).invokeCallbacks)
  else
    let toAlloc := if chain.bufferLen ≤ 4096 / 2 then chain.bufferLen * 2 else chain.bufferLen
    let toAlloc := if toAlloc < datlen then datlen else toAlloc
    match evbufferChainNew P malloc buf.nextAddr toAlloc with
    | none => some (-1, buf)
    | some tmp =>
        let buf := { buf with nextAddr := buf.nextAddr + 1 }
        let filled :=
          if remain = 0 then some buf
          else (buf.memcpy chain (chain.misalign + chain.off) (data.take remain)).map fun b =>
            (b.setLast (chain.extend remain)).added remain
        let rest := data.drop remain
        filled.bind fun buf =>
          (buf.memcpy tmp 0 rest).bind fun buf =>
            (buf.chainInsert { tmp with off := rest.length }).map fun buf =>
              (0, { buf with nAddForCb := buf.nAddForCb + rest.length }.invokeCallbacks)

/-- `evbuffer_add`; `malloc` says which of its allocations succeed. -/
def evbufferAdd (P : Platform) (malloc : ℕ → Bool) (buf : Evbuffer) (data : List Byte) :
    Option (ℤ × Evbuffer) :=
  if buf.freezeEnd then some (-1, buf)
  else if P.sizeMax - buf.totalLen < data.length then some (-1, buf)
  else
    match buf.chains.getLast? with
    | some chain => buf.addToLast P (malloc 0) chain data
    | none =>
        match evbufferChainNew P (malloc 0) buf.nextAddr data.length with
        | none => some (-1, buf)
        | some chain =>
            ({ buf with nextAddr := buf.nextAddr + 1 }.chainInsert chain).bind fun buf =>
              buf.addToLast P (malloc 1) chain data

/-! ### Draining and copying out -/

/-- `HAS_PINNED_R`. -/
def hasPinnedR (buf : Evbuffer) : Bool :=
  match buf.chains.getLast? with
  | none => false
  | some c => c.memPinnedR

/-- The loop of `evbuffer_drain` over the chains from `*last_with_datap` on: the chains left,
and the chains freed. -/
def drainAfter : List EvbufferChain → ℕ → Option (List EvbufferChain × List EvbufferChain)
  | [], _ => none
  | c :: cs, remaining =>
      if remaining < c.off then some (c.advance remaining :: cs, [])
      else if c.memPinnedR then
        if remaining = c.off then some (c.advance c.off :: cs, []) else none
      else (drainAfter cs (remaining - c.off)).map fun r => (r.1, c :: r.2)

/-- The loop of `evbuffer_drain` over all chains: the two parts left, and the chains freed.
When the chain whose `next` field `last_with_datap` points at is freed or emptied, the
pointer is set back to `buf->first`. -/
def drainLoop : List EvbufferChain → List EvbufferChain → ℕ →
    Option (List EvbufferChain × List EvbufferChain × List EvbufferChain)
  | [], after, remaining => (drainAfter after remaining).map fun r => ([], r.1, r.2)
  | c :: cs, after, remaining =>
      if remaining < c.off then some (c.advance remaining :: cs, after, [])
      else if c.memPinnedR then
        if remaining = c.off then
          if cs = [] then some ([], c.advance c.off :: after, [])
          else some (c.advance c.off :: cs, after, [])
        else none
      else (drainLoop cs after (remaining - c.off)).map fun r => (r.1, r.2.1, c :: r.2.2)

/-- `evbuffer_drain`. -/
def evbufferDrain (buf : Evbuffer) (len : ℕ) : Option (ℤ × Evbuffer) :=
  if buf.totalLen = 0 then some (0, buf)
  else if buf.freezeStart then some (-1, buf)
  else if buf.totalLen ≤ len ∧ !buf.hasPinnedR then
    some (0, { buf.freeAll buf.chains with
      before := []
      after := []
      totalLen := 0
      nDelForCb := buf.nDelForCb + buf.totalLen }.invokeCallbacks)
  else
    let len := min len buf.totalLen
    (drainLoop buf.before buf.after len).map fun r =>
      (0, { buf.freeAll r.2.2 with
        before := r.1
        after := r.2.1
        totalLen := buf.totalLen - len
        nDelForCb := buf.nDelForCb + len }.invokeCallbacks)

/-- The loop of `evbuffer_copyout`. -/
def copyoutLoop (mem : ℕ → ℕ → Byte) : List EvbufferChain → ℕ → Option (List Byte)
  | [], datlen => if datlen = 0 then some [] else none
  | c :: cs, datlen =>
      if datlen = 0 then some []
      else if c.off ≤ datlen then
        (copyoutLoop mem cs (datlen - c.off)).map fun data => c.data.cells mem ++ data
      else some (slice (mem c.addr) c.misalign datlen)

/-- `evbuffer_copyout`: the result and the bytes copied to `data_out`. -/
def evbufferCopyout (buf : Evbuffer) (datlen : ℕ) : Option (ℤ × List Byte) :=
  let datlen := min datlen buf.totalLen
  if datlen = 0 then some (0, [])
  else if buf.freezeStart then some (-1, [])
  else (copyoutLoop buf.mem buf.chains datlen).map fun data => (datlen, data)

/-- `evbuffer_remove`: the result, the bytes copied to `data_out`, and the buffer after. -/
def evbufferRemove (buf : Evbuffer) (datlen : ℕ) : Option (ℤ × List Byte × Evbuffer) :=
  (buf.evbufferCopyout datlen).bind fun r =>
    if 0 < r.1 then
      (buf.evbufferDrain r.1.toNat).map fun d => (if d.1 < 0 then -1 else r.1, r.2, d.2)
    else some (r.1, r.2, buf)

/-! ### Making room for a read -/

/-- How the loop of `_evbuffer_expand_fast` ends: there is enough space, or not after so many
bytes in so many chains. -/
inductive Room
  | enough
  | short (avail used : ℕ)
  deriving DecidableEq

/-- The loop of `_evbuffer_expand_fast`; `first` is whether the chain is
`*last_with_datap`. Chains without data are realigned on the way. -/
def expandLoop (datlen n : ℕ) : Bool → List EvbufferChain → ℕ → ℕ →
    Option (List EvbufferChain × Room)
  | _, [], avail, used => some ([], .short avail used)
  | first, c :: cs, avail, used =>
      if c.off ≠ 0 then
        if first then
          let avail := avail + c.spaceLen
          let used := if c.spaceLen = 0 then used else used + 1
          if datlen ≤ avail then some (c :: cs, .enough)
          else if used = n then some (c :: cs, .short avail used)
          else (expandLoop datlen n false cs avail used).map fun r => (c :: r.1, r.2)
        else none
      else
        let c := { c with misalign := 0 }
        let avail := avail + c.bufferLen
        if datlen ≤ avail then some (c :: cs, .enough)
        else if used + 1 = n then some (c :: cs, .short avail (used + 1))
        else (expandLoop datlen n false cs avail (used + 1)).map fun r => (c :: r.1, r.2)

/-- The end of `_evbuffer_expand_fast`: all chains without data make way for one. -/
def replaceEmpty (P : Platform) (malloc : Bool) (buf : Evbuffer) (datlen : ℕ) :
    Option (ℤ × Evbuffer) :=
  match buf.after with
  | [] => none
  | c :: cs =>
      if c.off = 0 then
        if buf.before = [] ∧ cs.all fun d => d.off = 0 then
          match evbufferChainNew P malloc buf.nextAddr datlen with
          | none => some (-1, { buf.freeAll (c :: cs) with after := [], totalLen := 0 })
          | some tmp =>
              some (0, { buf.freeAll (c :: cs) with
                after := [tmp]
                nextAddr := buf.nextAddr + 1 })
        else none
      else if (cs.all fun d => d.off = 0) ∧ c.spaceLen ≤ datlen then
        match evbufferChainNew P malloc buf.nextAddr (datlen - c.spaceLen) with
        | none => some (-1, { buf.freeAll cs with after := [c] })
        | some tmp =>
            some (0, { buf.freeAll cs with after := [c, tmp], nextAddr := buf.nextAddr + 1 })
      else none

/-- `_evbuffer_expand_fast`. -/
def expandFast (P : Platform) (malloc : Bool) (buf : Evbuffer) (datlen n : ℕ) :
    Option (ℤ × Evbuffer) :=
  if n < 2 then none
  else if buf.chains = [] then
    match evbufferChainNew P malloc buf.nextAddr datlen with
    | none => some (-1, buf)
    | some chain =>
        ({ buf with nextAddr := buf.nextAddr + 1 }.chainInsert chain).map fun b => (0, b)
  else
    (expandLoop datlen n true buf.after 0 0).bind fun r =>
      let buf := { buf with after := r.1 }
      match r.2 with
      | .enough => some (0, buf)
      | .short avail used =>
          if used < n then
            match evbufferChainNew P malloc buf.nextAddr (datlen - avail) with
            | none => some (-1, buf)
            | some tmp =>
                some (0, { buf with after := buf.after ++ [tmp], nextAddr := buf.nextAddr + 1 })
          else buf.replaceEmpty P malloc datlen

/-- The loop of `_evbuffer_read_setup_vecs` over the chains from `*firstchainp` on. -/
def setupVecs (exact : Bool) : List EvbufferChain → ℕ → ℕ → Option (List (Region ℕ))
  | _, 0, _ => some []
  | cs, avail + 1, howmuch =>
      if howmuch = 0 then some []
      else
        match cs with
        | [] => none
        | c :: cs =>
            let len := if exact then min c.spaceLen howmuch else c.spaceLen
            (setupVecs exact cs avail (howmuch - len)).map fun vecs =>
              ⟨c.addr, c.misalign + c.off, len⟩ :: vecs

/-- `_evbuffer_read_setup_vecs`: whether `*chainp` is behind `*last_with_datap`, and the
vectors. -/
def readSetupVecs (buf : Evbuffer) (howmuch avail : ℕ) (exact : Bool) :
    Option (Bool × List (Region ℕ)) :=
  match buf.after with
  | [] => none
  | c :: cs =>
      if c.spaceLen = 0 then (setupVecs exact cs avail howmuch).map fun vecs => (true, vecs)
      else (setupVecs exact (c :: cs) avail howmuch).map fun vecs => (false, vecs)

end Evbuffer

end IocpEcho
