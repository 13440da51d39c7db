import IocpEcho.Ownership
import IocpEcho.TestServer

/-!
# One Operation to an Overlapped Block

Between the call that starts an overlapped operation and the dequeuing of its completion, a
`PER_IO_DATA` belongs to Windows: it must not be part of a second operation, and its
`Overlapped`, `OperationType` and `client` must not be written (`OverlappedSafe`).

The accept loop and the workers keep to this by handing blocks over: the loop owns the block
it prepares, an operation owns its block while it is outstanding, and a worker owns the block
of the completion it dequeued. `TestServer::Run` takes a new block exactly when `AcceptEx`
returned `TRUE`. A `FALSE` with another error leaves the block to the loop, rightly; a
`FALSE` with `ERROR_IO_PENDING` leaves it to the loop although the operation has it.

## Main results

* `subperm_execPort`, `subperm_dequeue`: how a step moves blocks.
* `owned_of_reach`: as long as no `AcceptEx` is pending, ownership is exclusive.
* `overlappedSafe_iff`: the blocks are safe in every run over a sequence of outcomes exactly
  when none of them is `ERROR_IO_PENDING`.
-/

namespace IocpEcho.TestServer

open Interleaving

/-- No block has two outstanding operations, and no thread is about to reuse a block that
has one. -/
structure OverlappedSafe (s : PortState) : Prop where
  once : ∀ io, s.mem.outstanding.countP (fun op => op.io = io) ≤ 1
  unused : ∀ t f, (s.stack t).head? = some f → ∀ io, f.reuses = some io →
    ∀ op ∈ s.mem.outstanding, op.io ≠ io

/-! ### Who owns a block -/

/-- The block a thread owns: the accept loop until `AcceptEx` has taken the block, a worker
from the completion to its own operation. -/
def PortFrame.owns : PortFrame → Option ℕ
  | .run (.l161 b) | .run (.l162 b) | .run (.l165 b) | .run (.l167 b) | .run (.l174 b) => some b
  | .run (.l180 b false) | .run (.l193 b false) => some b
  | .worker _ op _ => some op.io
  | _ => none

/-- The blocks of outstanding operations. -/
def PortMemory.lent (m : PortMemory) : List ℕ :=
  m.outstanding.map Operation.io

/-- The block that a statement allocates. -/
def PortFrame.allocates (m : PortMemory) : PortFrame → List ℕ
  | .run .l159 => [m.nextIo]
  | _ => []

/-- A thread reuses only the block it owns. -/
theorem owns_of_reuses {f : PortFrame} {b : ℕ} (h : f.reuses = some b) : f.owns = some b := by
  cases f with
  | run line => cases line <;> first | exact h | cases h
  | worker line op bytes => cases line <;> first | exact h | cases h

/-- A lent block more, in front or at the end. -/
theorem lent_launch (m : PortMemory) (op : Operation) :
    (m.launch op).lent.Perm (op.io :: m.lent) := by
  rw [PortMemory.lent, PortMemory.launch, List.map_append]
  exact List.perm_append_comm

/-- **How a statement moves blocks**: between its thread and the outstanding operations, with
a fresh block from `GlobalAlloc`. The one exception is a pending `AcceptEx`. -/
theorem subperm_execPort {t : ℕ} {o : PortOutcome} {f : PortFrame} {m : PortMemory}
    {r : PortMemory × List PortFrame} (h : execPort t o f m = some r)
    (hpending : AcceptOutcome.pending ∉ f.outcomes o) :
    (tokens PortFrame.owns r.2 ++ r.1.lent).Subperm
      (f.allocates m ++ (tokens PortFrame.owns [f] ++ m.lent)) := by
  cases f with
  | run line =>
      obtain rfl := Option.some.inj h
      cases line with
      | l159 | l161 b | l162 b | l165 b | l167 b | l197 b => exact List.Subperm.refl _
      | l174 b =>
          have hne : o.accept ≠ .pending := fun hc => hpending (hc ▸ List.mem_singleton_self _)
          cases hacc : o.accept with
          | accepted =>
              simp only [execRun, hacc]
              exact (lent_launch _ _).subperm
          | pending => exact absurd hacc hne
          | failed =>
              simp only [execRun, hacc]
              exact List.Subperm.refl _
      | l180 b rc =>
          cases rc <;> simp only [execRun] <;> split <;> exact List.Subperm.refl _
      | l193 b rc => cases rc <;> exact List.Subperm.refl _
  | worker line op bytes =>
      obtain rfl := Option.some.inj h
      cases line with
      | l39 | l40 | l48 | l63 | l64 | l65 | l66 => exact List.Subperm.refl _
      | l41 => exact (List.sublist_cons_self _ _).subperm
      | l25 =>
          simp only [execWorker]
          split <;> exact List.Subperm.refl _
      | l30 =>
          simp only [execWorker]
          split <;> exact List.Subperm.refl _
      | l68 =>
          simp only [execWorker]
          split
          · exact (lent_launch _ op).subperm
          · exact (List.sublist_cons_self _ _).subperm

/-- Dequeuing moves a block from its operation to the worker. -/
theorem subperm_dequeue {e : Dequeue} {m : PortMemory}
    {r : PortMemory × List PortFrame} (h : dequeue e m = some r) :
    (tokens PortFrame.owns r.2 ++ r.1.lent).Subperm m.lent := by
  obtain ⟨hmem, hout, -, -, -, hframes⟩ := dequeue_cases h
  rw [hframes, PortMemory.lent, hout]
  exact ((List.perm_cons_erase hmem).map Operation.io).symm.subperm

/-! ### The invariant -/

/-- Every block has one owner, and all of them have been allocated. -/
structure Owned (s : PortState) : Prop where
  exclusive : Exclusive PortFrame.owns PortMemory.lent s
  allocated : ∀ t, ∀ b ∈ tokens PortFrame.owns (s.stack t), b < s.mem.nextIo
  allocatedLent : ∀ b ∈ s.mem.lent, b < s.mem.nextIo

theorem owned_init : Owned PortState.init := by
  have htokens : ∀ t, tokens PortFrame.owns (PortState.init.stack t) = [] := by
    intro t
    by_cases ht : t = 0
    · subst ht
      rfl
    · change tokens PortFrame.owns (if t = 0 then _ else []) = []
      rw [if_neg ht]
      rfl
  refine ⟨⟨fun t => ?_, fun t u a _ ha => ?_⟩, fun t b hb => ?_, fun b hb => ?_⟩
  · rw [htokens]
    exact List.nodup_nil
  · rw [htokens] at ha
    exact absurd ha List.not_mem_nil
  · rw [htokens] at hb
    exact absurd hb List.not_mem_nil
  · exact absurd hb List.not_mem_nil

/-- Blocks are never taken back, and an allocated block is counted. -/
theorem nextIo_execPort {t : ℕ} {o : PortOutcome} {f : PortFrame} {m : PortMemory}
    {r : PortMemory × List PortFrame} (h : execPort t o f m = some r) :
    r.1.nextIo = m.nextIo + (f.allocates m).length := by
  cases f with
  | run line =>
      obtain rfl := Option.some.inj h
      cases line with
      | l159 | l161 b | l162 b | l165 b | l167 b | l197 b => rfl
      | l174 b | l180 b rc | l193 b rc =>
          simp only [execRun]
          split <;> rfl
  | worker line op bytes =>
      obtain rfl := Option.some.inj h
      cases line with
      | l39 | l40 | l41 | l48 | l63 | l64 | l65 | l66 => rfl
      | l25 | l30 | l68 =>
          simp only [execWorker]
          split <;> rfl

/-- A statement allocates the next block or none. -/
theorem allocates_cases (m : PortMemory) (f : PortFrame) :
    f.allocates m = [] ∨ f.allocates m = [m.nextIo] := by
  cases f with
  | run line => cases line <;> first | exact Or.inr rfl | exact Or.inl rfl
  | worker line op bytes => exact Or.inl rfl

/-- What a step leaves with its thread and in the pool has been allocated, when it only moves
allocated blocks. -/
theorem Owned.set {s : PortState} (h : Owned s) {t : ℕ} {popped post : List PortFrame}
    (hs : s.stack t = popped ++ post) {r : PortMemory × List PortFrame} {fresh : List ℕ}
    (hmove : (tokens PortFrame.owns r.2 ++ r.1.lent).Subperm
      (fresh ++ (tokens PortFrame.owns popped ++ s.mem.lent)))
    (hfresh : fresh = [] ∨ fresh = [s.mem.nextIo])
    (hnext : r.1.nextIo = s.mem.nextIo + fresh.length) : Owned (s.set t r post) := by
  have hold : ∀ b ∈ tokens PortFrame.owns r.2 ++ r.1.lent, b < r.1.nextIo := by
    intro b hb
    rcases List.mem_append.mp (hmove.subset hb) with hb | hb
    · rcases hfresh with rfl | rfl
      · exact absurd hb List.not_mem_nil
      · rw [List.mem_singleton.mp hb, hnext]
        exact Nat.lt_succ_self _
    · rw [hnext]
      rcases List.mem_append.mp hb with hb | hb
      · have hlt := h.allocated t b (by rw [hs, tokens_append]; exact List.mem_append_left _ hb)
        omega
      · have hlt := h.allocatedLent b hb
        omega
  refine ⟨h.exclusive.set hs hmove ?_ ?_, fun u b hb => ?_, fun b hb => ?_⟩
  · rcases hfresh with rfl | rfl
    · exact List.nodup_nil
    · exact List.nodup_singleton _
  · intro b hb
    rcases hfresh with rfl | rfl
    · exact absurd hb List.not_mem_nil
    · rw [List.mem_singleton.mp hb]
      exact ⟨fun hc => absurd (h.allocatedLent _ hc) (Nat.lt_irrefl _),
        fun u hc => absurd (h.allocated u _ hc) (Nat.lt_irrefl _)⟩
  · rw [Config.set_mem]
    by_cases hu : u = t
    · subst hu
      rw [Config.set_stack_self, tokens_append] at hb
      rcases List.mem_append.mp hb with hb | hb
      · exact hold b (List.mem_append_left _ hb)
      · have hlt := h.allocated u b (by rw [hs, tokens_append]; exact List.mem_append_right _ hb)
        omega
    · rw [Config.set_stack_of_ne s hu] at hb
      have hlt := h.allocated u b hb
      omega
  · exact hold b (List.mem_append_right _ hb)

/-- The outcomes of a run are a prefix of those after one more step. -/
theorem accepts_prefix_step {s s' : PortState} {l : Label ℕ PortOutcome Dequeue}
    (h : testServer.step s l = some s') : s.mem.accepts <+: s'.mem.accepts := by
  rcases Program.step_cases h with
    ⟨t, o, f, post, r, -, -, hexec, rfl⟩ | ⟨t, e, r, -, -, hstart, rfl⟩
  · rw [Config.set_mem, accepts_execPort hexec]
    exact List.prefix_append _ _
  · have hsame : r.1.accepts = s.mem.accepts := accepts_dequeue hstart
    exact ⟨[], (List.append_nil _).trans hsame.symm⟩

/-- A step that is no pending `AcceptEx` keeps every block with one owner. -/
theorem Owned.step {s s' : PortState} {l : Label ℕ PortOutcome Dequeue} (h : Owned s)
    (hstep : testServer.step s l = some s') (hpending : .pending ∉ s'.mem.accepts) :
    Owned s' := by
  rcases Program.step_cases hstep with
    ⟨t, o, f, post, r, -, hs, hexec, rfl⟩ | ⟨t, e, r, -, hs, hstart, rfl⟩
  · rw [Config.set_mem, accepts_execPort hexec] at hpending
    have hf : .pending ∉ f.outcomes o := fun hc => hpending (List.mem_append_right _ hc)
    have hs' : s.stack t = [f] ++ post := hs
    exact h.set hs' (subperm_execPort hexec hf) (allocates_cases s.mem f)
      (nextIo_execPort hexec)
  · have hs' : s.stack t = [] ++ [] := hs
    have hmove : (tokens PortFrame.owns r.2 ++ r.1.lent).Subperm
        ([] ++ (tokens PortFrame.owns [] ++ s.mem.lent)) := subperm_dequeue hstart
    obtain ⟨-, -, -, -, hnext, -⟩ := dequeue_cases hstart
    exact h.set hs' hmove (Or.inl rfl) hnext

/-- As long as no `AcceptEx` is pending, every block has one owner. -/
theorem owned_of_reach {s : PortState}
    (hreach : Reach testServer.step Always PortState.init s)
    (hpending : .pending ∉ s.mem.accepts) : Owned s := by
  induction hreach with
  | init => exact owned_init
  | step _ _ hstep ih =>
      refine (ih fun hc => hpending ?_).step hstep hpending
      exact (accepts_prefix_step hstep).subset hc

/-- Where every block has one owner, every block is safe. -/
theorem Owned.overlappedSafe {s : PortState} (h : Owned s) : OverlappedSafe s := by
  constructor
  · intro io
    have hcount := List.nodup_iff_count_le_one.mp (h.exclusive.pool_nodup 0) io
    have hsame : s.mem.outstanding.countP (fun op => op.io = io) = s.mem.lent.count io := by
      rw [PortMemory.lent, List.count_eq_countP, List.countP_map]
      refine List.countP_congr fun op _ => ?_
      simp
    rw [hsame]
    exact hcount
  · intro t f hf io hio op hop heq
    have hmem : f ∈ s.stack t := List.mem_of_mem_head? hf
    refine h.exclusive.notMem_pool hmem (owns_of_reuses hio) ?_
    exact List.mem_map.mpr ⟨op, hop, heq⟩

/-! ### A pending `AcceptEx` -/

/-- The accept loop executes its next statement. -/
theorem reach_execRun {s : PortState} {line : RunLine} (hs : s.stack 0 = [.run line])
    (o : PortOutcome) :
    ∃ s', Reach testServer.step Always s s' ∧ s'.mem = (execRun s.mem o line).1 ∧
      s'.stack 0 = (execRun s.mem o line).2 ∧
      s'.mem.accepts = s.mem.accepts ++ (PortFrame.run line).outcomes o := by
  refine ⟨s.set 0 (execRun s.mem o line) [], ?_, rfl, ?_, ?_⟩
  · refine Reach.step (l := .exec 0 o) Reach.init trivial ?_
    simp only [Program.step, hs]
    rfl
  · rw [Config.set_stack_self, List.append_nil]
  · exact accepts_execPort (t := 0) rfl

/-- The accept loop takes a new block and gets to its `AcceptEx`. -/
theorem reach_prepare {s : PortState} (hs : s.stack 0 = [.run .l159]) (o : PortOutcome) :
    ∃ s' b, Reach testServer.step Always s s' ∧ s'.stack 0 = [.run (.l174 b)] ∧
      s'.mem.accepts = s.mem.accepts := by
  obtain ⟨s₁, h₁, -, hs₁, ha₁⟩ := reach_execRun hs o
  obtain ⟨s₂, h₂, -, hs₂, ha₂⟩ := reach_execRun hs₁ o
  obtain ⟨s₃, h₃, -, hs₃, ha₃⟩ := reach_execRun hs₂ o
  obtain ⟨s₄, h₄, -, hs₄, ha₄⟩ := reach_execRun hs₃ o
  obtain ⟨s₅, h₅, -, hs₅, ha₅⟩ := reach_execRun hs₄ o
  refine ⟨s₅, s.mem.nextIo, (((h₁.trans h₂).trans h₃).trans h₄).trans h₅, hs₅, ?_⟩
  rw [ha₅, ha₄, ha₃, ha₂, ha₁]
  simp [PortFrame.outcomes]

/-- The accept loop runs from one `AcceptEx` to the next, whatever the outcome. After a
pending one the block of the next call is the one that is outstanding. -/
theorem reach_acceptEx {s : PortState} {b : ℕ} (hs : s.stack 0 = [.run (.l174 b)])
    (a : AcceptOutcome) :
    ∃ s' b', Reach testServer.step Always s s' ∧ s'.stack 0 = [.run (.l174 b')] ∧
      s'.mem.accepts = s.mem.accepts ++ [a] ∧
      (a = .pending → ∃ op ∈ s'.mem.outstanding, op.io = b') := by
  let o : PortOutcome := ⟨0, a, false, false⟩
  obtain ⟨s₁, h₁, hm₁, hs₁, ha₁⟩ := reach_execRun hs o
  obtain ⟨s₂, h₂, hm₂, hs₂, ha₂⟩ := reach_execRun hs₁ o
  obtain ⟨s₃, h₃, hm₃, hs₃, ha₃⟩ := reach_execRun hs₂ o
  have h₁₃ := (h₁.trans h₂).trans h₃
  have haccepts : s₃.mem.accepts = s.mem.accepts ++ [a] := by
    rw [ha₃, ha₂, ha₁]
    simp [PortFrame.outcomes, o]
  cases a with
  | accepted =>
      -- only this outcome takes the loop to a new block
      obtain ⟨s₄, h₄, -, hs₄, ha₄⟩ := reach_execRun hs₃ o
      obtain ⟨s₅, b', h₅, hs₅, ha₅⟩ := reach_prepare hs₄ o
      refine ⟨s₅, b', (h₁₃.trans h₄).trans h₅, hs₅, ?_, fun hc => by cases hc⟩
      rw [ha₅, ha₄, haccepts]
      simp [PortFrame.outcomes]
  | failed => exact ⟨s₃, b, h₁₃, hs₃, haccepts, fun hc => by cases hc⟩
  | pending =>
      refine ⟨s₃, b, h₁₃, hs₃, haccepts, fun _ => ⟨⟨s.mem.perDandleData, b⟩, ?_, rfl⟩⟩
      rw [hm₃, hm₂, hm₁]
      exact List.mem_append_right _ (List.mem_singleton_self _)

/-- The accept loop can meet any sequence of outcomes. -/
theorem reach_accepts {s : PortState} {b : ℕ} (hs : s.stack 0 = [.run (.l174 b)])
    (os : List AcceptOutcome) :
    ∃ s' b', Reach testServer.step Always s s' ∧ s'.stack 0 = [.run (.l174 b')] ∧
      s'.mem.accepts = s.mem.accepts ++ os := by
  induction os generalizing s b with
  | nil => exact ⟨s, b, Reach.init, hs, (List.append_nil _).symm⟩
  | cons a os ih =>
      obtain ⟨s₁, b₁, h₁, hs₁, ha₁, -⟩ := reach_acceptEx hs a
      obtain ⟨s₂, b₂, h₂, hs₂, ha₂⟩ := ih hs₁
      refine ⟨s₂, b₂, h₁.trans h₂, hs₂, ?_⟩
      rw [ha₂, ha₁, List.append_assoc, List.singleton_append]

/-- After a sequence of outcomes that ends in a pending one, the loop is about to hand the
outstanding block to another `AcceptEx`. -/
theorem exists_not_overlappedSafe (os : List AcceptOutcome) :
    ∃ s, Reach testServer.step Always PortState.init s ∧
      s.mem.accepts = os ++ [.pending] ∧ ¬ OverlappedSafe s := by
  obtain ⟨s₀, b₀, h₀, hs₀, ha₀⟩ := reach_prepare (s := PortState.init) rfl
    ⟨0, .failed, false, false⟩
  obtain ⟨s₁, b₁, h₁, hs₁, ha₁⟩ := reach_accepts hs₀ os
  obtain ⟨s₂, b₂, h₂, hs₂, ha₂, hout⟩ := reach_acceptEx hs₁ .pending
  refine ⟨s₂, (h₀.trans h₁).trans h₂, ?_, fun hsafe => ?_⟩
  · rw [ha₂, ha₁, ha₀]
    rfl
  · obtain ⟨op, hop, heq⟩ := hout rfl
    exact hsafe.unused 0 (.run (.l174 b₂)) (by rw [hs₂]; rfl) b₂ rfl op hop heq

/-- **The overlapped blocks are safe in every run over a sequence of `AcceptEx` outcomes
exactly when none of them is `ERROR_IO_PENDING`.** -/
theorem overlappedSafe_iff (os : List AcceptOutcome) :
    (∀ s, Reach testServer.step Always PortState.init s → s.mem.accepts <+: os →
      OverlappedSafe s) ↔ .pending ∉ os := by
  constructor
  · intro hsafe hmem
    obtain ⟨before, rest, rfl⟩ := List.append_of_mem hmem
    obtain ⟨s, hreach, haccepts, hnot⟩ := exists_not_overlappedSafe before
    refine hnot (hsafe s hreach ?_)
    rw [haccepts]
    exact ⟨rest, by simp⟩
  · intro hpending s hreach hpre
    exact (owned_of_reach hreach fun hc => hpending (hpre.subset hc)).overlappedSafe

/-- An execution of the accept loop on which every `AcceptEx` is pending. -/
def pendingRun : List (Label ℕ PortOutcome Dequeue) :=
  List.replicate 9 (.exec 0 ⟨0, .pending, false, false⟩)

/-- Two pending `AcceptEx` calls: block 0 has two outstanding operations. -/
theorem not_overlappedSafe_pendingRun :
    ∃ s, Reach testServer.step Always PortState.init s ∧
      s.mem.accepts = [.pending, .pending] ∧ s.mem.outstanding = [⟨0, 0⟩, ⟨0, 0⟩] ∧
      ¬ OverlappedSafe s := by
  refine ⟨_, reach_of_run (along_always _ pendingRun _) rfl, rfl, rfl, fun hsafe => ?_⟩
  exact absurd (hsafe.once 0) (by decide)

end IocpEcho.TestServer
