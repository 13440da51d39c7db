import Mathlib.Logic.Function.Basic
import Mathlib.Tactic.Common

/-!
# Runs of Labelled Steps, and Interleaved Threads

Two layers of one general machine.

The lower layer is a labelled step function `step : σ → ℓ → Option σ`, `none` meaning that
the step is not enabled. `Reach step C s₀ s` says that a run from `s₀` reaches `s` in which
every step taken meets the condition `C`, which sees the state before the step and its
label. A property of every run is proved once per step (`Reach.invariant`); a concrete run
is found by evaluation (`run`, `reach_of_run`).

The upper layer runs any number of threads over one shared memory. A thread is a stack of
frames; a step of the machine picks a thread and executes its topmost frame, which changes
the memory and is replaced by the frames it leaves behind, callees first. An idle thread may
be started by an outside event. Every interleaving of frames is a run of this machine, so a
frame is exactly as much of a program as is taken to be atomic.

## Main results

* `Reach.invariant`: an invariant of every step that meets the condition holds in every
  state reached.
* `Program.step_cases`: what a step of the thread machine can be.
* `Config.mem_set_stack`: which frames stand on the stacks after a step.
* `Config.mem_set_stack_of_mem`, `Config.mem_stack_of_notMem`: a frame that the step neither
  took nor left is untouched.
-/

/-! ### Labelled steps -/

namespace Interleaving

variable {σ ℓ : Type*}

/-- The states reached from `s₀` by runs all of whose steps meet the condition `C`. -/
inductive Reach (step : σ → ℓ → Option σ) (C : σ → ℓ → Prop) (s₀ : σ) : σ → Prop
  | init : Reach step C s₀ s₀
  | step {s s' : σ} {l : ℓ} :
      Reach step C s₀ s → C s l → step s l = some s' → Reach step C s₀ s'

/-- The condition every step meets. -/
def Always (_ : σ) (_ : ℓ) : Prop := True

/-- **The invariant rule.** What holds initially and is kept by every step that meets the
condition holds in every state reached. -/
theorem Reach.invariant {step : σ → ℓ → Option σ} {C : σ → ℓ → Prop} {s₀ s : σ}
    (I : σ → Prop) (h0 : I s₀)
    (hstep : ∀ s s' l, I s → C s l → step s l = some s' → I s')
    (h : Reach step C s₀ s) : I s := by
  induction h with
  | init => exact h0
  | step _ hC hs ih => exact hstep _ _ _ ih hC hs

/-- A run continued by a run is a run. -/
theorem Reach.trans {step : σ → ℓ → Option σ} {C : σ → ℓ → Prop} {s₀ s₁ s₂ : σ}
    (h₁ : Reach step C s₀ s₁) (h₂ : Reach step C s₁ s₂) : Reach step C s₀ s₂ := by
  induction h₂ with
  | init => exact h₁
  | step _ hC hs ih => exact Reach.step ih hC hs

/-- Execute a list of labels, failing at the first step that is not enabled. -/
def run (step : σ → ℓ → Option σ) : σ → List ℓ → Option σ
  | s, [] => some s
  | s, l :: ls => (step s l).bind fun s' => run step s' ls

/-- Every step of the execution of a list of labels meets the condition. -/
def Along (step : σ → ℓ → Option σ) (C : σ → ℓ → Prop) : σ → List ℓ → Prop
  | _, [] => True
  | s, l :: ls => C s l ∧ ∀ s', step s l = some s' → Along step C s' ls

/-- An executed list of labels whose steps meet the condition is a run. -/
theorem reach_of_run {step : σ → ℓ → Option σ} {C : σ → ℓ → Prop} {ls : List ℓ} {s s' : σ}
    (hC : Along step C s ls) (h : run step s ls = some s') : Reach step C s s' := by
  induction ls generalizing s with
  | nil =>
      obtain rfl : s = s' := Option.some.inj h
      exact Reach.init
  | cons l ls ih =>
      obtain ⟨s₁, h₁, h₂⟩ := Option.bind_eq_some_iff.mp h
      exact (Reach.step Reach.init hC.1 h₁).trans (ih (hC.2 s₁ h₁) h₂)

/-- An execution all of whose labels meet the condition in every state. -/
theorem along_of_forall {step : σ → ℓ → Option σ} {C : σ → ℓ → Prop} {ls : List ℓ}
    (h : ∀ l ∈ ls, ∀ s, C s l) (s : σ) : Along step C s ls := by
  induction ls generalizing s with
  | nil => trivial
  | cons l ls ih =>
      refine ⟨h l List.mem_cons_self s, fun s' _ => ih (fun l' hl' => ?_) s'⟩
      exact h l' (List.mem_cons_of_mem l hl')

/-- Every list of labels meets the condition `Always`. -/
theorem along_always (step : σ → ℓ → Option σ) (ls : List ℓ) (s : σ) :
    Along step Always s ls :=
  along_of_forall (fun _ _ _ => trivial) s

/-! ### Threads as stacks of frames -/

variable {τ φ μ ω ε : Type*}

/-- A program of interleaved threads: how a frame executes, given the outcome `ω` of its
nondeterminism, and what an outside event `ε` makes of an idle thread. Both return the new
memory and the frames left to run, or `none` when they are blocked. -/
structure Program (τ φ μ ω ε : Type*) where
  exec : τ → ω → φ → μ → Option (μ × List φ)
  start : τ → ε → μ → Option (μ × List φ)

/-- The shared memory and the stack of every thread, topmost frame first. -/
structure Config (τ φ μ : Type*) where
  mem : μ
  stack : τ → List φ

/-- A label of the machine: a thread runs its topmost frame, or an idle thread is started. -/
inductive Label (τ ω ε : Type*)
  | exec (t : τ) (o : ω)
  | start (t : τ) (e : ε)

section Machine

variable [DecidableEq τ]

/-- The configuration after thread `t` has replaced its stack. -/
def Config.set (c : Config τ φ μ) (t : τ) (r : μ × List φ) (post : List φ) :
    Config τ φ μ :=
  { mem := r.1, stack := Function.update c.stack t (r.2 ++ post) }

/-- One step of the thread machine. -/
def Program.step (P : Program τ φ μ ω ε) (c : Config τ φ μ) :
    Label τ ω ε → Option (Config τ φ μ)
  | .exec t o =>
      match c.stack t with
      | [] => none
      | f :: post => (P.exec t o f c.mem).map fun r => c.set t r post
  | .start t e =>
      match c.stack t with
      | [] => (P.start t e c.mem).map fun r => c.set t r []
      | _ :: _ => none

@[simp] theorem Config.set_mem (c : Config τ φ μ) (t : τ) (r : μ × List φ)
    (post : List φ) : (c.set t r post).mem = r.1 := rfl

@[simp] theorem Config.set_stack_self (c : Config τ φ μ) (t : τ) (r : μ × List φ)
    (post : List φ) : (c.set t r post).stack t = r.2 ++ post := by
  simp [Config.set]

@[simp] theorem Config.set_stack_of_ne (c : Config τ φ μ) {t u : τ} (h : u ≠ t)
    (r : μ × List φ) (post : List φ) : (c.set t r post).stack u = c.stack u := by
  simp [Config.set, h]

/-- **Inversion of a step**: a thread executed its topmost frame, or an idle thread was
started; either way only its own stack changed. -/
theorem Program.step_cases {P : Program τ φ μ ω ε} {c c' : Config τ φ μ}
    {l : Label τ ω ε} (h : P.step c l = some c') :
    (∃ t o f post r, l = .exec t o ∧ c.stack t = f :: post ∧
      P.exec t o f c.mem = some r ∧ c' = c.set t r post) ∨
    (∃ t e r, l = .start t e ∧ c.stack t = [] ∧ P.start t e c.mem = some r ∧
      c' = c.set t r []) := by
  cases l with
  | exec t o =>
      simp only [Program.step] at h
      cases hs : c.stack t with
      | nil => simp [hs] at h
      | cons f post =>
          simp only [hs, Option.map_eq_some_iff] at h
          obtain ⟨r, hr, rfl⟩ := h
          exact Or.inl ⟨t, o, f, post, r, rfl, hs, hr, rfl⟩
  | start t e =>
      simp only [Program.step] at h
      cases hs : c.stack t with
      | nil =>
          simp only [hs, Option.map_eq_some_iff] at h
          obtain ⟨r, hr, rfl⟩ := h
          exact Or.inr ⟨t, e, r, rfl, hs, hr, rfl⟩
      | cons f post => simp [hs] at h

/-- The frames on the stacks after a step: those the step left, those below the frame it
executed, and those of the other threads. -/
theorem Config.mem_set_stack {c : Config τ φ μ} {t u : τ} {r : μ × List φ} {post : List φ}
    {g : φ} : g ∈ (c.set t r post).stack u ↔
      (u = t ∧ (g ∈ r.2 ∨ g ∈ post)) ∨ (u ≠ t ∧ g ∈ c.stack u) := by
  by_cases hu : u = t
  · subst hu
    simp
  · simp [hu]

/-- The frames on the stacks after an outside event. -/
theorem Config.mem_set_stack_start {c : Config τ φ μ} {t u : τ} {r : μ × List φ} {g : φ}
    (h : g ∈ (c.set t r []).stack u) : g ∈ r.2 ∨ g ∈ c.stack u := by
  rcases Config.mem_set_stack.mp h with ⟨-, hg | hg⟩ | ⟨-, hg⟩
  · exact Or.inl hg
  · simp at hg
  · exact Or.inr hg

/-- A frame that the step did not take from the stack stays where it stood. -/
theorem Config.mem_set_stack_of_mem {c : Config τ φ μ} {t u : τ} {r : μ × List φ}
    {popped post : List φ} {g : φ} (hs : c.stack t = popped ++ post) (hg : g ∈ c.stack u)
    (hstays : u = t → g ∉ popped) : g ∈ (c.set t r post).stack u := by
  refine Config.mem_set_stack.mpr ?_
  by_cases hu : u = t
  · subst hu
    rw [hs] at hg
    rcases List.mem_append.mp hg with hg | hg
    · exact absurd hg (hstays rfl)
    · exact Or.inl ⟨rfl, Or.inr hg⟩
  · exact Or.inr ⟨hu, hg⟩

/-- A frame on a stack after a step that the step did not leave stood there before. -/
theorem Config.mem_stack_of_notMem {c : Config τ φ μ} {t u : τ} {r : μ × List φ}
    {f g : φ} {post : List φ} (hs : c.stack t = f :: post)
    (h : g ∈ (c.set t r post).stack u) (hg : g ∉ r.2) : g ∈ c.stack u := by
  rcases Config.mem_set_stack.mp h with ⟨rfl, hg' | hg'⟩ | ⟨-, hg'⟩
  · exact absurd hg' hg
  · exact hs ▸ List.mem_cons_of_mem f hg'
  · exact hg'

end Machine

end Interleaving
