import IocpEcho.Discipline
import IocpEcho.Reply
import Mathlib.Data.Finmap

/-!
# The Overlapped Bufferevent

In IOCP mode libevent gives every accepted socket a `bufferevent_async`
(`LibEvent/Source/bufferevent_async.c`). This module embeds the part of that object that
decides when a callback of the server runs and when the object dies: the reference count and
the recursive lock, the callbacks, the enabled directions, `ok`, the overlapped operations
in progress, and the two buffers.

Watermarks, rate limits, timeouts, deferred callbacks and `connecting` are never used on an
accepted socket of this server and are left out: `read_suspended`, `write_suspended` and
`connecting` are zero throughout, and `at_most` of a read is always 16384.

The fields `conn`, `freed` and `appended` are not memory of the program: they name the
creation an object stems from, record that `bufferevent_free` was called on it, and keep
every byte string ever appended to its output.
-/

namespace IocpEcho

open Interleaving

/-- The value of a `bufferevent *`: an address, which the allocator may hand out again. -/
abbrev Addr := ℕ

/-- A thread: the dispatch thread or one of the IOCP threads. -/
abbrev Tid := ℕ

/-- A `bufferevent_async`. -/
structure Bufferevent where
  conn : ℕ
  refcnt : ℕ
  lock : Option (Tid × ℕ)
  callbacks : Bool
  enabledRead : Bool
  enabledWrite : Bool
  ok : Bool
  readInProgress : ℕ
  writeInProgress : ℕ
  input : List Byte
  output : List Byte
  freed : Bool
  appended : List (List Byte)
  deriving DecidableEq

namespace Bufferevent

/-- `bufferevent_async_new` through `bufferevent_init_common`: one reference, no callbacks,
writing enabled. -/
def new (conn : ℕ) : Bufferevent where
  conn := conn
  refcnt := 1
  lock := none
  callbacks := false
  enabledRead := false
  enabledWrite := true
  ok := true
  readInProgress := 0
  writeInProgress := 0
  input := []
  output := []
  freed := false
  appended := []

/-- `_bufferevent_incref_and_lock`. -/
def increfAndLock (t : Tid) (b : Bufferevent) : Bufferevent :=
  { b with refcnt := b.refcnt + 1, lock := lockBy t b.lock }

/-- Drop a reference; the object is destroyed with its last one. -/
def decref (b : Bufferevent) : Option Bufferevent :=
  if b.refcnt - 1 = 0 then none else some { b with refcnt := b.refcnt - 1 }

/-- `_bufferevent_decref_and_unlock`. -/
def decrefAndUnlock (b : Bufferevent) : Option Bufferevent :=
  if b.refcnt - 1 = 0 then none
  else some { b with refcnt := b.refcnt - 1, lock := unlock b.lock }

/-- `bufferevent_setcb` with the three callbacks of the server. -/
def setcb (b : Bufferevent) : Bufferevent :=
  { b with callbacks := true }

/-- `bufferevent_free`: clear the callbacks, cancel everything (`BEV_CTRL_CANCEL_ALL`), drop
the reference of the creation. -/
def free (b : Bufferevent) : Option Bufferevent :=
  { b with callbacks := false, ok := false, freed := true }.decref

/-- `evbuffer_add` on the output. -/
def append (data : List Byte) (b : Bufferevent) : Bufferevent :=
  { b with output := b.output ++ data, appended := b.appended ++ [data] }

/-- `bev_async_consider_reading` gets as far as `evbuffer_launch_read`. -/
def wantsRead (b : Bufferevent) : Bool :=
  b.readInProgress = 0 && b.ok && b.enabledRead

/-- `bev_async_consider_writing` gets as far as `evbuffer_launch_write`. -/
def wantsWrite (b : Bufferevent) : Bool :=
  b.writeInProgress = 0 && b.ok && b.enabledWrite && b.output ≠ []

/-- A read has been launched: a reference is kept for its completion. -/
def launchRead (b : Bufferevent) : Bufferevent :=
  { b with refcnt := b.refcnt + 1, readInProgress := maxToReadEver }

/-- A write has been launched, of at most `MAX_TO_WRITE_EVER` bytes. -/
def launchWrite (b : Bufferevent) : Bufferevent :=
  { b with refcnt := b.refcnt + 1, writeInProgress := min b.output.length maxToReadEver }

/-- The references that are not held by a running libevent call: that of the creation until
`bufferevent_free`, and one for each overlapped operation in progress. -/
def outside (b : Bufferevent) : ℕ :=
  (if b.freed then 0 else 1) + (if b.readInProgress = 0 then 0 else 1) +
    (if b.writeInProgress = 0 then 0 else 1)

/-- The operation launched holds the reference that the launch took. -/
theorem outside_launchRead (b : Bufferevent) (h : b.readInProgress = 0) :
    b.launchRead.outside = b.outside + 1 := by
  have hne : b.launchRead.readInProgress ≠ 0 := by
    change maxToReadEver ≠ 0
    rw [maxToReadEver]
    omega
  rw [outside, outside, if_pos h, if_neg hne]
  change (if b.freed then 0 else 1) + 1 + (if b.writeInProgress = 0 then 0 else 1)
    = (if b.freed then 0 else 1) + 0 + (if b.writeInProgress = 0 then 0 else 1) + 1
  omega

theorem outside_launchWrite (b : Bufferevent) (h : b.writeInProgress = 0)
    (hout : b.output ≠ []) : b.launchWrite.outside = b.outside + 1 := by
  have hlen : 0 < b.output.length := List.length_pos_of_ne_nil hout
  have hne : b.launchWrite.writeInProgress ≠ 0 := by
    change min b.output.length maxToReadEver ≠ 0
    rw [maxToReadEver]
    omega
  rw [outside, outside, if_pos h, if_neg hne]
  rfl

/-- The books of a bufferevent. -/
def ledger (b : Bufferevent) : Ledger Tid :=
  ⟨b.lock, b.refcnt, b.outside⟩

end Bufferevent

end IocpEcho
