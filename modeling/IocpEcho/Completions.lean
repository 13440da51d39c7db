import IocpEcho.TestServer

/-!
# What becomes of a Finished Connection

A completion of zero bytes for a receive or a send tells a worker that the peer has closed
the connection, and `WorkerThread` has a branch that closes the socket and frees both blocks
(`Server/TestServer/TestServer.cpp`, lines 30–43). Its condition asks for an `OperationType`
that is `RECV_POSTED` and `SEND_POSTED` at once, so the branch is never taken: every
completion, of a finished connection or not, falls through to the next `WSARecv` on the same
socket with the same block.

Runs start in any memory, with any operations outstanding, any position of the accept loop
and no worker inside its loop body; they are judged when every worker waits again.

## Main results

* `execWorker_next`: a worker goes from a completion to its `WSARecv`, and nowhere else.
* `reposted_of_reach`: every completion dequeued is turned into another `WSARecv`.
* `closesFinished_iff`: finished connections are closed exactly in the runs that have none.
-/

namespace IocpEcho.TestServer

open Interleaving

/-! ### What should happen -/

/-- The completion tells that the peer has closed the connection. -/
def Completion.Finished (c : Completion) : Prop :=
  c.bytesTransferred = 0 ∧ (c.operationType = .recvPosted ∨ c.operationType = .sendPosted)

/-- The entry closes a socket. -/
def LogEntry.closes (socket : ℕ) : LogEntry → Bool
  | .closesocket socket' _ => socket' = socket
  | _ => false

/-- Finished connections are closed: the socket once, both blocks freed once, nothing posted
afterwards with either; and only a completion of zero bytes closes. -/
structure ClosesFinished (s : PortState) : Prop where
  finished : ∀ before c after, s.mem.log = before ++ .dequeued c :: after → c.Finished →
    s.mem.log.countP (LogEntry.closes (s.mem.sockets c.operation.handle)) = 1 ∧
    s.mem.log.count (.globalFreeHandle c.operation.handle) = 1 ∧
    s.mem.log.count (.globalFreeIo c.operation.io) = 1 ∧
    ∀ socket io, .wsaRecv socket io ∈ after →
      socket ≠ s.mem.sockets c.operation.handle ∧ io ≠ c.operation.io
  onlyZero : ∀ socket bytes, .closesocket socket bytes ∈ s.mem.log → bytes = 0

/-- The thread is inside the loop body of `WorkerThread`. -/
def PortFrame.isWorker : PortFrame → Bool
  | .run _ => false
  | .worker _ _ _ => true

/-- Every worker waits for a completion. -/
def Settled (s : PortState) : Prop :=
  ∀ t, ∀ f ∈ s.stack t, f.isWorker = false

/-! ### Where a worker goes -/

/-- The statements of the branch that closes. -/
def PortFrame.closing : PortFrame → Bool
  | .worker .l39 _ _ | .worker .l40 _ _ | .worker .l41 _ _ => true
  | _ => false

/-- The entries of the branch that closes. -/
def LogEntry.releases : LogEntry → Bool
  | .closesocket _ _ | .globalFreeHandle _ | .globalFreeIo _ => true
  | _ => false

/-- **Where a worker goes.** Outside the branch that closes, a worker goes on to a statement
outside that branch, with the same completion, and ends at its `WSARecv`. -/
theorem execWorker_next (m : PortMemory) (t : ℕ) (o : PortOutcome) (op : Operation) (bytes : ℕ)
    {line : WorkerLine} (h : (PortFrame.worker line op bytes).closing = false) :
    (line = .l68 ∧ (execWorker m t o op bytes line).2 = []) ∨
      ∃ line', (execWorker m t o op bytes line).2 = [.worker line' op bytes] ∧
        (PortFrame.worker line' op bytes).closing = false := by
  cases line with
  | l39 | l40 | l41 => cases h
  | l25 | l48 | l63 | l64 | l65 | l66 => exact Or.inr ⟨_, rfl, rfl⟩
  | l68 => exact Or.inl ⟨rfl, rfl⟩
  | l30 =>
      refine Or.inr ⟨.l48, ?_, rfl⟩
      have hguard : ¬ (bytes = 0 ∧ (m.ioData op.io).operationType = .recvPosted ∧
          (m.ioData op.io).operationType = .sendPosted) := by
        rintro ⟨-, hrecv, hsend⟩
        rw [hrecv] at hsend
        cases hsend
      simp only [execWorker]
      rw [if_neg hguard]

/-- The accept loop goes on with the accept loop. -/
theorem execRun_next (m : PortMemory) (o : PortOutcome) (line : RunLine) :
    ∃ line', (execRun m o line).2 = [.run line'] := by
  cases line with
  | l193 b rc =>
      cases rc with
      | false => exact ⟨_, rfl⟩
      | true => exact ⟨_, rfl⟩
  | l159 | l161 b | l162 b | l165 b | l167 b | l174 b | l180 b rc | l197 b => exact ⟨_, rfl⟩

/-- A statement outside the branch that closes leads to none inside it. -/
theorem closing_execPort {t : ℕ} {o : PortOutcome} {f : PortFrame} {m : PortMemory}
    {r : PortMemory × List PortFrame} (h : execPort t o f m = some r)
    (hf : f.closing = false) : ∀ g ∈ r.2, g.closing = false := by
  cases f with
  | run line =>
      obtain rfl := Option.some.inj h
      obtain ⟨line', hnext⟩ := execRun_next m o line
      intro g hg
      rw [hnext] at hg
      rw [List.mem_singleton.mp hg]
      rfl
  | worker line op bytes =>
      obtain rfl := Option.some.inj h
      intro g hg
      rcases execWorker_next m t o op bytes hf with ⟨-, hnext⟩ | ⟨line', hnext, hline'⟩
      · rw [hnext] at hg
        exact absurd hg List.not_mem_nil
      · rw [hnext] at hg
        rw [List.mem_singleton.mp hg]
        exact hline'

/-- A statement outside the branch that closes records no release. -/
theorem releases_records {t : ℕ} {o : PortOutcome} {m : PortMemory} {f : PortFrame}
    (hf : f.closing = false) : ∀ e ∈ f.records t o m, e.releases = false := by
  intro e he
  cases f with
  | run line => cases line <;> simp_all [PortFrame.records, LogEntry.releases]
  | worker line op bytes =>
      cases line <;> simp_all [PortFrame.records, LogEntry.releases, PortFrame.closing]

/-- No statement records a completion: only dequeuing does. -/
theorem dequeued_notMem_records (t : ℕ) (o : PortOutcome) (m : PortMemory) (f : PortFrame)
    (c : Completion) : .dequeued c ∉ f.records t o m := by
  intro hc
  cases f with
  | run line => cases line <;> simp_all [PortFrame.records]
  | worker line op bytes => cases line <;> simp_all [PortFrame.records]

/-! ### The invariant -/

/-- No thread is in the branch that closes, and nothing has been released. -/
structure NeverCloses (s : PortState) : Prop where
  frames : ∀ t, ∀ f ∈ s.stack t, f.closing = false
  log : ∀ e ∈ s.mem.log, e.releases = false

/-- One step closes nothing. -/
theorem NeverCloses.step {s s' : PortState} {l : Label ℕ PortOutcome Dequeue}
    (h : NeverCloses s) (hstep : testServer.step s l = some s') : NeverCloses s' := by
  rcases Program.step_cases hstep with
    ⟨t, o, f, post, r, -, hs, hexec, rfl⟩ | ⟨t, e, r, -, hs, hstart, rfl⟩
  · have hf : f.closing = false := h.frames t f (hs ▸ List.mem_cons_self)
    constructor
    · intro u g hg
      by_cases hnew : g ∈ r.2
      · exact closing_execPort hexec hf g hnew
      · exact h.frames u g (Config.mem_stack_of_notMem hs hg hnew)
    · intro e he
      rw [Config.set_mem, (log_execPort hexec).1] at he
      rcases List.mem_append.mp he with he | he
      · exact h.log e he
      · exact releases_records hf e he
  · obtain ⟨-, -, hlog, -, -, hframes⟩ := dequeue_cases hstart
    constructor
    · intro u g hg
      rcases Config.mem_set_stack_start hg with hg | hg
      · rw [hframes] at hg
        rw [List.mem_singleton.mp hg]
        rfl
      · exact h.frames u g hg
    · intro e he
      rw [Config.set_mem, hlog] at he
      rcases List.mem_append.mp he with he | he
      · exact h.log e he
      · rw [List.mem_singleton.mp he]
        rfl

/-- A frame of the accept loop is not in the branch that closes. -/
theorem closing_of_not_worker {f : PortFrame} (h : f.isWorker = false) :
    f.closing = false := by
  cases f with
  | run line => rfl
  | worker line op bytes => cases h

/-- From waiting workers and an empty log, no run closes anything. -/
theorem neverCloses_of_reach {s₀ s : PortState} (hidle : Settled s₀) (hlog : s₀.mem.log = [])
    (hreach : Reach testServer.step Always s₀ s) : NeverCloses s := by
  refine hreach.invariant NeverCloses ?_ fun _ _ _ h _ hstep => h.step hstep
  refine ⟨fun t f hf => closing_of_not_worker (hidle t f hf), fun e he => ?_⟩
  rw [hlog] at he
  exact absurd he List.not_mem_nil

/-! ### Every completion is posted again -/

/-- The completions whose worker has come to its `WSARecv`, and those in the hands of a
worker, are all that have been dequeued. -/
def Reposts (s : PortState) : Prop :=
  ∀ before c after, s.mem.log = before ++ .dequeued c :: after →
    .wsaRecv (s.mem.sockets c.operation.handle) c.operation.io ∈ after ∨
      ∃ t line bytes, .worker line c.operation bytes ∈ s.stack t

/-- Where a longer log has an entry that its new part has not. -/
theorem split_append_of_notMem {α : Type*} {l new before after : List α} {x : α}
    (h : l ++ new = before ++ x :: after) (hx : x ∉ new) :
    ∃ rest, l = before ++ x :: rest ∧ after = rest ++ new := by
  rcases List.append_eq_append_iff.mp h with ⟨as, rfl, hnew⟩ | ⟨cs, rfl, hcs⟩
  · exact absurd (hnew ▸ List.mem_append_right _ List.mem_cons_self) hx
  · cases cs with
    | nil =>
        rw [List.nil_append] at hcs
        exact absurd (hcs ▸ List.mem_cons_self) hx
    | cons y cs =>
        obtain ⟨rfl, rfl⟩ := List.cons.inj hcs
        exact ⟨cs, rfl, rfl⟩

/-- A statement keeps every completion posted again or in the hands of a worker. -/
theorem Reposts.exec {s : PortState} (h : Reposts s) (hnever : NeverCloses s) {t : ℕ}
    {o : PortOutcome} {f : PortFrame} {post : List PortFrame}
    {r : PortMemory × List PortFrame} (hs : s.stack t = f :: post)
    (hexec : execPort t o f s.mem = some r) : Reposts (s.set t r post) := by
  intro before c after hsplit
  obtain ⟨hlog, hsockets⟩ := log_execPort hexec
  rw [Config.set_mem, hlog] at hsplit
  obtain ⟨rest, hold, rfl⟩ := split_append_of_notMem hsplit (dequeued_notMem_records _ _ _ f c)
  rw [Config.set_mem, hsockets]
  rcases h before c rest hold with hposted | ⟨u, line, bytes, hframe⟩
  · exact Or.inl (List.mem_append_left _ hposted)
  · by_cases hsame : u = t ∧ f = .worker line c.operation bytes
    · -- the worker of the completion takes its next step
      obtain ⟨rfl, rfl⟩ := hsame
      obtain rfl := Option.some.inj hexec
      have hf := hnever.frames u _ (hs ▸ List.mem_cons_self)
      rcases execWorker_next s.mem u o c.operation bytes hf with
        ⟨rfl, -⟩ | ⟨line', hnext, -⟩
      · exact Or.inl (List.mem_append_right _ (List.mem_singleton_self _))
      · refine Or.inr ⟨u, line', bytes, ?_⟩
        rw [Config.set_stack_self, hnext]
        exact List.mem_cons_self
    · have hs' : s.stack t = [f] ++ post := hs
      refine Or.inr ⟨u, line, bytes, Config.mem_set_stack_of_mem hs' hframe fun hu hf => ?_⟩
      exact hsame ⟨hu, (List.mem_singleton.mp hf).symm⟩

/-- A dequeued completion is in the hands of its worker. -/
theorem Reposts.dequeue {s : PortState} (h : Reposts s) {t : ℕ} {e : Dequeue}
    {r : PortMemory × List PortFrame} (hs : s.stack t = [])
    (hstart : dequeue e s.mem = some r) : Reposts (s.set t r []) := by
  obtain ⟨-, -, hlog, hsockets, -, hframes⟩ := dequeue_cases hstart
  intro before c after hsplit
  rw [Config.set_mem, hlog] at hsplit
  by_cases hc : c = e.completion s.mem
  · refine Or.inr ⟨t, .l25, e.bytesTransferred, ?_⟩
    rw [Config.set_stack_self, hframes, hc]
    exact List.mem_cons_self
  · have hnew : LogEntry.dequeued c ∉ [LogEntry.dequeued (e.completion s.mem)] := by
      simpa using hc
    obtain ⟨rest, hold, rfl⟩ := split_append_of_notMem hsplit hnew
    rw [Config.set_mem, hsockets]
    rcases h before c rest hold with hposted | ⟨u, line, bytes, hframe⟩
    · exact Or.inl (List.mem_append_left _ hposted)
    · have hs' : s.stack t = [] ++ [] := hs
      exact Or.inr ⟨u, line, bytes, Config.mem_set_stack_of_mem hs' hframe
        fun _ => List.not_mem_nil⟩

/-- In every run, every completion is posted again or in the hands of a worker. -/
theorem reposts_of_reach {s₀ s : PortState} (hidle : Settled s₀) (hlog : s₀.mem.log = [])
    (hreach : Reach testServer.step Always s₀ s) : Reposts s := by
  induction hreach with
  | init =>
      intro before c after hsplit
      rw [hlog] at hsplit
      exact absurd hsplit (by simp)
  | step hreach _ hstep ih =>
      have hnever := neverCloses_of_reach hidle hlog hreach
      rcases Program.step_cases hstep with
        ⟨t, o, f, post, r, -, hs, hexec, rfl⟩ | ⟨t, e, r, -, hs, hstart, rfl⟩
      · exact ih.exec hnever hs hexec
      · exact ih.dequeue hs hstart

/-- **Every completion dequeued is turned into another `WSARecv`** on the same socket with the
same block. -/
theorem reposted_of_reach {s₀ s : PortState} (hidle : Settled s₀) (hlog : s₀.mem.log = [])
    (hreach : Reach testServer.step Always s₀ s) (hsettled : Settled s)
    {before after : List LogEntry} {c : Completion}
    (hsplit : s.mem.log = before ++ .dequeued c :: after) :
    .wsaRecv (s.mem.sockets c.operation.handle) c.operation.io ∈ after := by
  rcases reposts_of_reach hidle hlog hreach before c after hsplit with
    hposted | ⟨t, line, bytes, hframe⟩
  · exact hposted
  · cases hsettled t _ hframe

/-! ### Finished connections -/

/-- **Finished connections are closed exactly in the runs that have none**: instead of being
closed, a finished connection is posted again. -/
theorem closesFinished_iff {s₀ s : PortState} (hidle : Settled s₀) (hlog : s₀.mem.log = [])
    (hreach : Reach testServer.step Always s₀ s) (hsettled : Settled s) :
    ClosesFinished s ↔ ∀ c, .dequeued c ∈ s.mem.log → ¬ c.Finished := by
  constructor
  · intro h c hmem hfin
    obtain ⟨before, after, hsplit⟩ := List.append_of_mem hmem
    obtain ⟨-, -, -, hnone⟩ := h.finished before c after hsplit hfin
    have hposted := reposted_of_reach hidle hlog hreach hsettled hsplit
    exact (hnone _ _ hposted).1 rfl
  · intro h
    constructor
    · intro before c after hsplit hfin
      refine absurd hfin (h c ?_)
      rw [hsplit]
      exact List.mem_append_right _ List.mem_cons_self
    · intro socket bytes hmem
      have hrel := (neverCloses_of_reach hidle hlog hreach).log _ hmem
      cases hrel

/-- A worker on a port where the completion of a receive on socket 7 is due. -/
def recvDue : PortState where
  mem := ⟨fun _ => 7, 0, fun _ => ⟨none, 0, 0, .recvPosted, 0⟩, 1, [⟨0, 0⟩], [], []⟩
  stack := fun _ => []

/-- One iteration of worker 1 on a completion of `bytes` bytes. -/
def workerRun (bytes : ℕ) : List (Label ℕ PortOutcome Dequeue) :=
  .start 1 ⟨⟨0, 0⟩, bytes⟩ :: List.replicate 8 (.exec 1 ⟨0, .failed, false, true⟩)

theorem settled_recvDue : Settled recvDue :=
  fun _ _ hf => absurd hf List.not_mem_nil

/-- The iteration ends with the worker waiting and the receive posted again, whether bytes
came or not. -/
theorem reach_workerRun {bytes : ℕ} (hbytes : bytes = 0 ∨ bytes = 5) :
    ∃ s, Reach testServer.step Always recvDue s ∧ Settled s ∧
      s.mem.log = [.dequeued ⟨⟨0, 0⟩, bytes, .recvPosted⟩, .wsaRecv 7 0] := by
  have hrun : ∃ s, run testServer.step recvDue (workerRun bytes) = some s ∧ Settled s ∧
      s.mem.log = [.dequeued ⟨⟨0, 0⟩, bytes, .recvPosted⟩, .wsaRecv 7 0] := by
    rcases hbytes with rfl | rfl
    all_goals
      refine ⟨_, rfl, fun t f hf => ?_, rfl⟩
      by_cases ht : t = 1
      · subst ht
        exact absurd hf List.not_mem_nil
      · simp only [Config.set_stack_of_ne _ ht] at hf
        exact absurd hf List.not_mem_nil
  obtain ⟨s, hs, hrest⟩ := hrun
  exact ⟨s, reach_of_run (along_always _ _ _) hs, hrest⟩

/-- A completion of five bytes closes nothing, as it should. -/
theorem closesFinished_five_bytes :
    ∃ s, Reach testServer.step Always recvDue s ∧ Settled s ∧ ClosesFinished s := by
  obtain ⟨s, hreach, hsettled, hlog⟩ := reach_workerRun (Or.inr rfl)
  refine ⟨s, hreach, hsettled, ?_⟩
  refine (closesFinished_iff settled_recvDue rfl hreach hsettled).mpr fun c hmem hfin => ?_
  rw [hlog] at hmem
  simp only [List.mem_cons, LogEntry.dequeued.injEq, List.not_mem_nil, reduceCtorEq,
    or_false] at hmem
  rw [hmem] at hfin
  exact absurd hfin.1 (by decide)

/-- A completion of zero bytes of a receive: the socket is not closed, and the receive is
posted again. -/
theorem not_closesFinished_zero_bytes :
    ∃ s, Reach testServer.step Always recvDue s ∧ Settled s ∧
      s.mem.log = [.dequeued ⟨⟨0, 0⟩, 0, .recvPosted⟩, .wsaRecv 7 0] ∧
      ¬ ClosesFinished s := by
  obtain ⟨s, hreach, hsettled, hlog⟩ := reach_workerRun (Or.inl rfl)
  refine ⟨s, hreach, hsettled, hlog, fun h => ?_⟩
  have hfin := h.finished [] ⟨⟨0, 0⟩, 0, .recvPosted⟩ [.wsaRecv 7 0] hlog ⟨rfl, Or.inl rfl⟩
  rw [hlog] at hfin
  exact absurd hfin.2.1 (by decide)

end IocpEcho.TestServer
