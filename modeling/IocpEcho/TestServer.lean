import IocpEcho.Interleaving

/-!
# `TestServer`: AcceptEx and Worker Threads on a Completion Port

The second server of the repository uses a completion port directly
(`Server/TestServer/TestServer.cpp`). `TestServer::Run` allocates a `PER_IO_DATA`, starts an
`AcceptEx` with it, and goes on to a new block when the call returned `TRUE` (lines 158–216).
Any number of `WorkerThread`s dequeue completions from the port and post a `WSARecv` with the
block each came with (lines 12–71). Nothing is locked.

The model is a program of interleaved threads, one statement a step. A worker without a frame
waits in `GetQueuedCompletionStatus`; a dequeued completion starts it. Windows is assumed to
queue exactly one completion for an operation that returned `TRUE` or `ERROR_IO_PENDING`, and
none for one that failed: `outstanding` holds the operations whose completion has not been
dequeued.

The two blocks of statements that prepare a `PER_IO_DATA`, lines 159–167 and 200–208, are the
same and lead to the same `AcceptEx`; they are modelled once, under the first numbers. The
contents of an `OVERLAPPED` belong to Windows and are left out; that a statement writes it is
recorded by `Frame.reuses`.
-/

namespace IocpEcho.TestServer

open Interleaving

/-! ### Blocks, operations and the log -/

/-- `OperationType`; zeroed memory reads `SEND_POSTED`. -/
inductive OperationType
  | sendPosted
  | recvPosted
  | accept
  deriving DecidableEq

/-- A `PER_IO_DATA`. `DataBuf.buf` is null or points to the `Buffer` of a block. -/
structure PerIoData where
  dataBufBuf : Option ℕ
  dataBufLen : ℕ
  dataLength : ℕ
  operationType : OperationType
  client : ℕ
  deriving DecidableEq

/-- What `GlobalAlloc` with `GPTR` returns. -/
def PerIoData.zeroed : PerIoData := ⟨none, 0, 0, .sendPosted, 0⟩

/-- `DATA_BUFFER_LEN`. -/
def dataBufferLen : ℕ := 1024

/-- The outcomes of `AcceptEx`: `TRUE`, `FALSE` with `ERROR_IO_PENDING`, `FALSE` with another
error. -/
inductive AcceptOutcome
  | accepted
  | pending
  | failed
  deriving DecidableEq

/-- An overlapped operation: the `PER_HANDLE_DATA` of its socket and its `PER_IO_DATA`. -/
structure Operation where
  handle : ℕ
  io : ℕ
  deriving DecidableEq

/-- A completion as a worker gets it, with the `OperationType` it finds in the block. -/
structure Completion where
  operation : Operation
  bytesTransferred : ℕ
  operationType : OperationType
  deriving DecidableEq

/-- What the threads have done. A `closesocket` carries the `BytesTransferred` of the
completion that led to it. -/
inductive LogEntry
  | acceptEx (client : ℕ) (receiveLength : UInt32) (io : ℕ) (outcome : AcceptOutcome)
  | getOverlappedResultSucess
  | connectSucess
  | dequeued (c : Completion)
  | clientData (threadId : ℕ)
  | closesocket (socket bytesTransferred : ℕ)
  | globalFreeHandle (handle : ℕ)
  | globalFreeIo (io : ℕ)
  | wsaRecv (socket io : ℕ)
  deriving DecidableEq

/-- The shared memory: the sockets of the `PER_HANDLE_DATA` blocks, that of the listening
socket, the `PER_IO_DATA` blocks allocated so far, the operations whose completion has not
been dequeued, and the vector `ClientData`. -/
structure PortMemory where
  sockets : ℕ → ℕ
  perDandleData : ℕ
  ioData : ℕ → PerIoData
  nextIo : ℕ
  outstanding : List Operation
  clientData : List ℕ
  log : List LogEntry

/-! ### Statements -/

/-- The statements of `TestServer::Run` from line 159 on, with the block `perIoData` points to
and the result of `AcceptEx`. -/
inductive RunLine
  | l159
  | l161 (perIoData : ℕ)
  | l162 (perIoData : ℕ)
  | l165 (perIoData : ℕ)
  | l167 (perIoData : ℕ)
  | l174 (perIoData : ℕ)
  | l180 (perIoData : ℕ) (rc : Bool)
  | l193 (perIoData : ℕ) (rc : Bool)
  | l197 (perIoData : ℕ)
  deriving DecidableEq

/-- The statements of `WorkerThread` behind line 19. -/
inductive WorkerLine
  | l25 | l30 | l39 | l40 | l41 | l48 | l63 | l64 | l65 | l66 | l68
  deriving DecidableEq

/-- The statement a thread executes next. -/
inductive PortFrame
  | run (line : RunLine)
  | worker (line : WorkerLine) (operation : Operation) (bytesTransferred : ℕ)
  deriving DecidableEq

/-- The outcomes of one step that the program does not decide: the socket `WSASocket`
returns, the outcome of `AcceptEx`, whether `GetOverlappedResult` finds the operation
completed, and whether `WSARecv` starts an operation. -/
structure PortOutcome where
  socket : ℕ
  accept : AcceptOutcome
  completed : Bool
  launched : Bool

/-- What starts a waiting worker: the completion of an operation. -/
structure Dequeue where
  operation : Operation
  bytesTransferred : ℕ

namespace PortMemory

/-- Write fields of a `PER_IO_DATA`. -/
def setIo (m : PortMemory) (b : ℕ) (d : PerIoData) : PortMemory :=
  { m with ioData := Function.update m.ioData b d }

/-- Extend the log. -/
def record (m : PortMemory) (e : LogEntry) : PortMemory :=
  { m with log := m.log ++ [e] }

/-- An operation has been started. -/
def launch (m : PortMemory) (op : Operation) : PortMemory :=
  { m with outstanding := m.outstanding ++ [op] }

end PortMemory

/-- `TestServer::Run`. -/
def execRun (m : PortMemory) (o : PortOutcome) : RunLine → PortMemory × List PortFrame
  | .l159 =>
      ({ m.setIo m.nextIo .zeroed with nextIo := m.nextIo + 1 }, [.run (.l161 m.nextIo)])
  | .l161 b => (m, [.run (.l162 b)])
  | .l162 b => (m.setIo b { m.ioData b with operationType := .accept }, [.run (.l165 b)])
  | .l165 b => (m.setIo b { m.ioData b with client := o.socket }, [.run (.l167 b)])
  | .l167 b => (m.setIo b { m.ioData b with dataLength := dataBufferLen }, [.run (.l174 b)])
  | .l174 b =>
      let m := m.record (.acceptEx (m.ioData b).client
        (UInt32.ofNat (m.ioData b).dataLength - (16 + 16) * 2) b o.accept)
      (if o.accept = .failed then m else m.launch ⟨m.perDandleData, b⟩,
        [.run (.l180 b (o.accept = .accepted))])
  | .l180 b rc =>
      (if o.completed then m.record .getOverlappedResultSucess else m, [.run (.l193 b rc)])
  | .l193 b rc =>
      if rc then (m.record .connectSucess, [.run (.l197 b)]) else (m, [.run (.l174 b)])
  | .l197 b => ({ m with clientData := m.clientData ++ [b] }, [.run .l159])

/-- `WorkerThread`. -/
def execWorker (m : PortMemory) (t : ℕ) (o : PortOutcome) (op : Operation) (bytes : ℕ) :
    WorkerLine → PortMemory × List PortFrame
  | .l25 =>
      (if (m.ioData op.io).operationType = .accept then m.record (.clientData t) else m,
        [.worker .l30 op bytes])
  | .l30 =>
      if bytes = 0 ∧ (m.ioData op.io).operationType = .recvPosted ∧
          (m.ioData op.io).operationType = .sendPosted then
        (m, [.worker .l39 op bytes])
      else (m, [.worker .l48 op bytes])
  | .l39 => (m.record (.closesocket (m.sockets op.handle) bytes), [.worker .l40 op bytes])
  | .l40 => (m.record (.globalFreeHandle op.handle), [.worker .l41 op bytes])
  | .l41 => (m.record (.globalFreeIo op.io), [])
  | .l48 => (m, [.worker .l63 op bytes])
  | .l63 => (m, [.worker .l64 op bytes])
  | .l64 =>
      (m.setIo op.io { m.ioData op.io with dataBufLen := dataBufferLen },
        [.worker .l65 op bytes])
  | .l65 =>
      (m.setIo op.io { m.ioData op.io with dataBufBuf := some op.io }, [.worker .l66 op bytes])
  | .l66 =>
      (m.setIo op.io { m.ioData op.io with operationType := .recvPosted },
        [.worker .l68 op bytes])
  | .l68 =>
      let m := m.record (.wsaRecv (m.sockets op.handle) op.io)
      (if o.launched then m.launch op else m, [])

/-- One statement of one thread. -/
def execPort (t : ℕ) (o : PortOutcome) (f : PortFrame) (m : PortMemory) :
    Option (PortMemory × List PortFrame) :=
  match f with
  | .run line => some (execRun m o line)
  | .worker line op bytes => some (execWorker m t o op bytes line)

/-- `GetQueuedCompletionStatus` returns: the completion of an outstanding operation, with any
number of bytes. -/
def dequeue (e : Dequeue) (m : PortMemory) : Option (PortMemory × List PortFrame) :=
  if e.operation ∈ m.outstanding then
    some ({ m.record (.dequeued ⟨e.operation, e.bytesTransferred,
          (m.ioData e.operation.io).operationType⟩) with
        outstanding := m.outstanding.erase e.operation },
      [.worker .l25 e.operation e.bytesTransferred])
  else none

/-- `TestServer` as a program of interleaved threads. -/
def testServer : Program ℕ PortFrame PortMemory PortOutcome Dequeue where
  exec := execPort
  start _ := dequeue

/-- A state of the server. -/
abbrev PortState := Config ℕ PortFrame PortMemory

/-- `TestServer::Run` at line 158 on thread 0; every other thread is a waiting worker. -/
def PortState.init : PortState where
  mem := ⟨fun _ => 0, 0, fun _ => .zeroed, 0, [], [], []⟩
  stack := fun t => if t = 0 then [.run .l159] else []

/-- The outcome that an entry records. -/
def LogEntry.outcome : LogEntry → Option AcceptOutcome
  | .acceptEx _ _ _ o => some o
  | _ => none

/-- The outcomes of `AcceptEx` so far, in order. -/
def PortMemory.accepts (m : PortMemory) : List AcceptOutcome :=
  m.log.filterMap LogEntry.outcome

/-- The block whose `Overlapped`, `OperationType` or `client` a statement writes, or which it
hands to a new operation or frees. -/
def PortFrame.reuses : PortFrame → Option ℕ
  | .run (.l161 b) | .run (.l162 b) | .run (.l165 b) | .run (.l174 b) => some b
  | .worker .l63 op _ | .worker .l66 op _ | .worker .l68 op _ | .worker .l41 op _ => some op.io
  | _ => none

/-! ### What one step records -/

/-- What a statement adds to the log. -/
def PortFrame.records (t : ℕ) (o : PortOutcome) (m : PortMemory) : PortFrame → List LogEntry
  | .run (.l174 b) =>
      [.acceptEx (m.ioData b).client (UInt32.ofNat (m.ioData b).dataLength - (16 + 16) * 2) b
        o.accept]
  | .run (.l180 _ _) => if o.completed then [.getOverlappedResultSucess] else []
  | .run (.l193 _ rc) => if rc then [.connectSucess] else []
  | .worker .l25 op _ =>
      if (m.ioData op.io).operationType = .accept then [.clientData t] else []
  | .worker .l39 op bytes => [.closesocket (m.sockets op.handle) bytes]
  | .worker .l40 op _ => [.globalFreeHandle op.handle]
  | .worker .l41 op _ => [.globalFreeIo op.io]
  | .worker .l68 op _ => [.wsaRecv (m.sockets op.handle) op.io]
  | _ => []

/-- **What a statement adds to the log**; the sockets of the `PER_HANDLE_DATA` blocks stay as
they are. -/
theorem log_execPort {t : ℕ} {o : PortOutcome} {f : PortFrame} {m : PortMemory}
    {r : PortMemory × List PortFrame} (h : execPort t o f m = some r) :
    r.1.log = m.log ++ f.records t o m ∧ r.1.sockets = m.sockets := by
  cases f with
  | run line =>
      obtain rfl := Option.some.inj h
      cases line with
      | l159 | l161 b | l162 b | l165 b | l167 b | l197 b =>
          exact ⟨(List.append_nil _).symm, rfl⟩
      | l174 b =>
          simp only [execRun]
          split <;> exact ⟨rfl, rfl⟩
      | l180 b rc | l193 b rc =>
          simp only [execRun, PortFrame.records]
          split
          · exact ⟨rfl, rfl⟩
          · exact ⟨(List.append_nil _).symm, rfl⟩
  | worker line op bytes =>
      obtain rfl := Option.some.inj h
      cases line with
      | l48 | l63 | l64 | l65 | l66 => exact ⟨(List.append_nil _).symm, rfl⟩
      | l39 | l40 | l41 => exact ⟨rfl, rfl⟩
      | l25 =>
          simp only [execWorker, PortFrame.records]
          split
          · exact ⟨rfl, rfl⟩
          · exact ⟨(List.append_nil _).symm, rfl⟩
      | l30 =>
          simp only [execWorker]
          split <;> exact ⟨(List.append_nil _).symm, rfl⟩
      | l68 =>
          simp only [execWorker]
          split <;> exact ⟨rfl, rfl⟩

/-- The completion that a dequeue event delivers. -/
def Dequeue.completion (e : Dequeue) (m : PortMemory) : Completion :=
  ⟨e.operation, e.bytesTransferred, (m.ioData e.operation.io).operationType⟩

/-- **What dequeuing does.** -/
theorem dequeue_cases {e : Dequeue} {m : PortMemory}
    {r : PortMemory × List PortFrame} (h : dequeue e m = some r) :
    e.operation ∈ m.outstanding ∧ r.1.outstanding = m.outstanding.erase e.operation ∧
      r.1.log = m.log ++ [.dequeued (e.completion m)] ∧ r.1.sockets = m.sockets ∧
      r.1.nextIo = m.nextIo ∧ r.2 = [.worker .l25 e.operation e.bytesTransferred] := by
  rw [dequeue, Option.ite_none_right_eq_some] at h
  obtain ⟨hmem, hr⟩ := h
  obtain rfl := Option.some.inj hr
  exact ⟨hmem, rfl, rfl, rfl, rfl, rfl⟩

/-- The outcome of `AcceptEx` that a statement adds. -/
def PortFrame.outcomes (o : PortOutcome) : PortFrame → List AcceptOutcome
  | .run (.l174 _) => [o.accept]
  | _ => []

/-- A statement adds its outcome to those of `AcceptEx`. -/
theorem accepts_execPort {t : ℕ} {o : PortOutcome} {f : PortFrame} {m : PortMemory}
    {r : PortMemory × List PortFrame} (h : execPort t o f m = some r) :
    r.1.accepts = m.accepts ++ f.outcomes o := by
  have houtcomes : (f.records t o m).filterMap LogEntry.outcome = f.outcomes o := by
    cases f with
    | run line =>
        cases line <;> simp only [PortFrame.records, PortFrame.outcomes] <;>
          first | rfl | (split <;> rfl)
    | worker line op bytes =>
        cases line <;> simp only [PortFrame.records, PortFrame.outcomes] <;>
          first | rfl | (split <;> rfl)
  rw [PortMemory.accepts, (log_execPort h).1, List.filterMap_append, houtcomes]
  rfl

/-- Dequeuing adds no outcome. -/
theorem accepts_dequeue {e : Dequeue} {m : PortMemory}
    {r : PortMemory × List PortFrame} (h : dequeue e m = some r) :
    r.1.accepts = m.accepts := by
  obtain ⟨-, -, hlog, -⟩ := dequeue_cases h
  rw [PortMemory.accepts, hlog, List.filterMap_append]
  exact List.append_nil _

end IocpEcho.TestServer
