import IocpEcho.Bufferevent

/-!
# The Callbacks of `EventIOCPServer`

The server as a program of interleaved threads: `iocp_listener_cb`, `iocp_conn_readcb`,
`iocp_conn_writecb` and `iocp_conn_eventcb` (`Server/EventServer/EventServer.cpp`, lines
146–245), one frame for each statement, and under them the libevent calls that can run a
callback synchronously (`bufferevent.c`, `bufferevent_async.c`). A frame names the statement
that is executed next, by its line, and carries the locals that are still needed.

Any thread may be started with an accepted socket or with a completion, so the runs of this
program include those of the real server, where accepted sockets are handled by the one
dispatch thread.

Three things the program cannot decide are outcomes of a step (`Outcome`): the address the
allocator returns, whether an overlapped operation can be launched, and the readings of the
clock and of memory that was never written. Undefined behaviour does not stop a run: a call
on a destroyed bufferevent does nothing, a call through the address of a destroyed one acts
on the bufferevent that lives there now, and dereferencing `map_Client.end()` yields an
arbitrary address.
-/

namespace IocpEcho

open Interleaving

/-- What `iocp_conn_eventcb` tests of its `events`. -/
inductive What
  | eof
  | error
  deriving DecidableEq

/-- What the callbacks print. -/
inductive Print
  | errorConstructing
  | connectFrom (sin : SockaddrIn)
  | clientCount (n : ℕ)
  | flushedRead
  | writecb (n : ℕ)
  | closed
  | gotError
  deriving DecidableEq

/-- The shared memory: the bufferevents by address, `map_Client`, the number of bufferevents
created so far, whether `event_base_loopbreak` was called, and the console. -/
structure Memory where
  heap : Addr → Option Bufferevent
  mapClient : Finmap fun _ : Addr => SockaddrIn
  nextConn : ℕ
  loopbreak : Bool
  stdout : List Print

/-- The statements of `iocp_listener_cb` after `bufferevent_socket_new` has succeeded. -/
inductive ListenerLine
  | l236 | l238 | l239 | l240 | l241 | l242 | l244
  deriving DecidableEq

/-- The statements of `iocp_conn_readcb`, with `readbuf`, `ItFind` and `a` as far as they
have a value. -/
inductive ReadLine
  | l162
  | l171
  | l173 (readbuf : List Byte)
  | l177 (readbuf : List Byte) (itFind : Option Addr)
  | l194 (itFind : Option Addr) (a : List Byte)
  deriving DecidableEq

/-- The statements of `iocp_conn_eventcb`. -/
inductive EventLine
  | l209 | l218 | l219
  deriving DecidableEq

/-- Who calls `bev_async_consider_reading`. -/
inductive ReadSite
  | enable
  | inbuf
  | complete
  deriving DecidableEq

/-- The statement a thread executes next. The first five constructors are the server's
callbacks, the others the libevent functions they run in. -/
inductive Frame
  | iocpListenerCb (sa : SockaddrIn)
  | listener (line : ListenerLine) (conn : ℕ) (bev : Addr) (psin : SockaddrIn)
  | readcb (line : ReadLine) (bev : Addr)
  | writecb (bev : Addr)
  | eventcb (line : EventLine) (bev : Addr) (events : What)
  | considerReading (site : ReadSite) (bev : Addr)
  | considerWriting (bev : Addr)
  | runReadcb (bev : Addr)
  | runWritecb (bev : Addr)
  | runEventcb (bev : Addr) (what : What)
  | decref (bev : Addr)
  | decrefAndUnlock (bev : Addr)
  deriving DecidableEq

/-- The outcomes of one step that the program does not decide. -/
structure Outcome where
  addr : Option Addr
  launched : Bool
  now : LocalTime
  past : List Byte
  stray : Addr

/-- What starts an idle thread: an accepted socket on the dispatch thread, or the completion
of an overlapped read or write on an IOCP thread. -/
inductive Event
  | accept (sa : SockaddrIn)
  | readComplete (bev : Addr) (data : List Byte) (ok : Bool)
  | writeComplete (bev : Addr) (nbytes : ℕ) (ok : Bool)

namespace Memory

/-- Replace the bufferevent at an address, or destroy it. -/
def setBev (m : Memory) (p : Addr) (b : Option Bufferevent) : Memory :=
  { m with heap := Function.update m.heap p b }

/-- Print to the console. -/
def print (m : Memory) (ps : List Print) : Memory :=
  { m with stdout := m.stdout ++ ps }

/-- A libevent call on the bufferevent at `p`, which waits for its lock. Where no bufferevent
lives the call does nothing and its caller goes on with `dead`. -/
def onBev (m : Memory) (t : Tid) (p : Addr) (dead : List Frame)
    (f : Bufferevent → Option Bufferevent × List Frame) : Option (Memory × List Frame) :=
  match m.heap p with
  | none => some (m, dead)
  | some b => if available t b.lock then some (m.setBev p (f b).1, (f b).2) else none

/-- A libevent call that only reads the bufferevent at `p`. -/
def readBev (m : Memory) (t : Tid) (p : Addr)
    (f : Bufferevent → List Print × List Frame) : Option (Memory × List Frame) :=
  match m.heap p with
  | none => some (m, [])
  | some b => if available t b.lock then some (m.print (f b).1, (f b).2) else none

end Memory

/-- `bufferevent_write`: append to the output; `be_async_outbuf_callback` considers writing
under the lock and a reference. -/
def buffereventWrite (t : Tid) (p : Addr) (data : List Byte) (b : Bufferevent) :
    Option Bufferevent × List Frame :=
  (some ((b.append data).increfAndLock t), [.considerWriting p, .decrefAndUnlock p])

/-- `bev_async_consider_reading`. -/
def bevAsyncConsiderReading (launched : Bool) (p : Addr) (b : Bufferevent) :
    Option Bufferevent × List Frame :=
  if b.wantsRead then
    if launched then (some b.launchRead, [])
    else (some { b with refcnt := b.refcnt + 1, ok := false },
      [.runEventcb p .error, .decref p])
  else (some b, [])

/-- `bev_async_consider_writing`; here the reference is dropped before the error is
reported. -/
def bevAsyncConsiderWriting (launched : Bool) (p : Addr) (b : Bufferevent) :
    Option Bufferevent × List Frame :=
  if b.wantsWrite then
    if launched then (some b.launchWrite, [])
    else (some { b with ok := false }, [.runEventcb p .error])
  else (some b, [])

/-- `iocp_listener_cb` from line 236 on. -/
def execListener (m : Memory) (t : Tid) (line : ListenerLine) (conn : ℕ) (p : Addr)
    (psin : SockaddrIn) : Option (Memory × List Frame) :=
  let next := fun l => Frame.listener l conn p psin
  match line with
  | .l236 => some ({ m with mapClient := m.mapClient.insert p psin }, [next .l238])
  | .l238 => some (m.print [.connectFrom psin], [next .l239])
  | .l239 => some (m.print [.clientCount m.mapClient.keys.card], [next .l240])
  | .l240 => m.onBev t p [next .l241] fun b => (some b.setcb, [next .l241])
  | .l241 => m.onBev t p [next .l242] fun b =>
      (some (({ b with enabledWrite := true } : Bufferevent).increfAndLock t),
        (if b.ok then [.considerWriting p] else []) ++ [.decrefAndUnlock p, next .l242])
  | .l242 => m.onBev t p [next .l244] fun b =>
      (some (({ b with enabledRead := true } : Bufferevent).increfAndLock t),
        (if b.ok then [.considerReading .enable p] else []) ++
          [.decrefAndUnlock p, next .l244])
  | .l244 => m.onBev t p [] (buffereventWrite t p message)

/-- `iocp_conn_readcb`. -/
def execReadcb (m : Memory) (t : Tid) (o : Outcome) (p : Addr) :
    ReadLine → Option (Memory × List Frame)
  | .l162 => m.readBev t p fun b =>
      if b.input = [] then ([.flushedRead], []) else ([], [.readcb .l171 p])
  | .l171 => m.onBev t p [.readcb (.l173 (readbuf [])) p] fun b =>
      if b.input = [] then (some b, [.readcb (.l173 (readbuf [])) p])
      else (some (({ b with input := (buffereventRead b.input maxToReadEver).2 } :
          Bufferevent).increfAndLock t),
        [.considerReading .inbuf p, .decrefAndUnlock p,
          .readcb (.l173 (readbuf b.input)) p])
  | .l173 buf =>
      some (m, [.readcb (.l177 buf (if p ∈ m.mapClient then some p else none)) p])
  | .l177 buf itFind =>
      let entry := itFind.bind fun k => m.mapClient.lookup k
      some (m, [.readcb (.l194 itFind (replyText entry o.now (appendCString buf o.past))) p])
  | .l194 itFind a =>
      let first := (itFind.filter fun k => k ∈ m.mapClient).getD o.stray
      m.onBev t first [] (buffereventWrite t first (a ++ [0]))

/-- `iocp_conn_eventcb`. -/
def execEventcb (m : Memory) (t : Tid) (p : Addr) (events : What) :
    EventLine → Option (Memory × List Frame)
  | .l209 =>
      some (m.print [match events with | .eof => .closed | .error => .gotError],
        [.eventcb .l218 p events])
  | .l218 => some ({ m with mapClient := m.mapClient.erase p }, [.eventcb .l219 p events])
  | .l219 => m.onBev t p [] fun b => (b.free, [])

/-- One statement of one thread. -/
def exec (t : Tid) (o : Outcome) (f : Frame) (m : Memory) : Option (Memory × List Frame) :=
  match f with
  | .iocpListenerCb sa =>
      match o.addr with
      | none => some ({ m.print [.errorConstructing] with loopbreak := true }, [])
      | some p =>
          match m.heap p with
          | some _ => none
          | none => some ({ m.setBev p (some (.new m.nextConn)) with
              nextConn := m.nextConn + 1 }, [.listener .l236 m.nextConn p sa])
  | .listener line conn p psin => execListener m t line conn p psin
  | .readcb line p => execReadcb m t o p line
  | .writecb p => m.readBev t p fun b =>
      (if b.output = [] then [] else [.writecb b.output.length], [])
  | .eventcb line p events => execEventcb m t p events line
  | .considerReading _ p => m.onBev t p [] (bevAsyncConsiderReading o.launched p)
  | .considerWriting p => m.onBev t p [] (bevAsyncConsiderWriting o.launched p)
  | .runReadcb p => m.readBev t p fun b =>
      ([], if b.callbacks then [.readcb .l162 p] else [])
  | .runWritecb p => m.readBev t p fun b =>
      ([], if b.callbacks then [.writecb p] else [])
  | .runEventcb p what => m.readBev t p fun b =>
      ([], if b.callbacks then [.eventcb .l209 p what] else [])
  | .decref p => m.onBev t p [] fun b => (b.decref, [])
  | .decrefAndUnlock p => m.onBev t p [] fun b => (b.decrefAndUnlock, [])

/-- `read_complete` up to its callbacks: commit the data under the lock; the reference kept
for the completion is dropped at the end. -/
def readComplete (t : Tid) (p : Addr) (data : List Byte) (ok : Bool) (b : Bufferevent) :
    Bufferevent × List Frame :=
  let b := { b with
    lock := lockBy t b.lock, input := b.input ++ data, readInProgress := 0 }
  if b.ok then
    if ok && data ≠ [] then
      (b, [.runReadcb p, .considerReading .complete p, .decrefAndUnlock p])
    else
      ({ b with ok := false },
        [.runEventcb p (if ok then .eof else .error), .decrefAndUnlock p])
  else (b, [.decrefAndUnlock p])

/-- `write_complete` up to its callbacks. -/
def writeComplete (t : Tid) (p : Addr) (nbytes : ℕ) (ok : Bool) (b : Bufferevent) :
    Bufferevent × List Frame :=
  let b := { b with
    lock := lockBy t b.lock, output := b.output.drop nbytes, writeInProgress := 0 }
  if b.ok then
    if ok && nbytes ≠ 0 then
      (b, (if b.output = [] then [.runWritecb p] else []) ++
        [.considerWriting p, .decrefAndUnlock p])
    else
      ({ b with ok := false },
        [.runEventcb p (if ok then .eof else .error), .decrefAndUnlock p])
  else (b, [.decrefAndUnlock p])

/-- How an event starts an idle thread. A completion comes for an operation in progress, of
at most as many bytes as were asked for, and waits for the lock. -/
def start (t : Tid) (e : Event) (m : Memory) : Option (Memory × List Frame) :=
  match e with
  | .accept sa => some (m, [.iocpListenerCb sa])
  | .readComplete p data ok =>
      match m.heap p with
      | none => none
      | some b =>
          if available t b.lock && b.readInProgress ≠ 0 && data.length ≤ b.readInProgress then
            some (m.setBev p (some (readComplete t p data ok b).1),
              (readComplete t p data ok b).2)
          else none
  | .writeComplete p nbytes ok =>
      match m.heap p with
      | none => none
      | some b =>
          if available t b.lock && b.writeInProgress ≠ 0 && nbytes ≤ b.writeInProgress then
            some (m.setBev p (some (writeComplete t p nbytes ok b).1),
              (writeComplete t p nbytes ok b).2)
          else none

/-- The server as a program of interleaved threads. -/
def server : Program Tid Frame Memory Outcome Event where
  exec := exec
  start := start

/-- A state of the server: the shared memory and the statements of every thread. -/
abbrev State := Config Tid Frame Memory

/-- No connection yet, every thread idle. -/
def State.init : State where
  mem := ⟨fun _ => none, ∅, 0, false, []⟩
  stack := fun _ => []

end IocpEcho
