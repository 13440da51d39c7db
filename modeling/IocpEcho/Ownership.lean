import IocpEcho.Interleaving
import Mathlib.Data.List.Nodup
import Mathlib.Data.List.Perm.Subperm

/-!
# Exclusive Ownership between Threads

Threads that share objects without a lock can still be safe when every object has one owner
at a time: the thread whose frame names it, or a common pool from which threads take objects
and to which they give them back. This module states that discipline for the thread machine
and gives its one rule: a step that only moves tokens between its own stack and the pool,
drops some, or brings fresh ones keeps ownership exclusive, whatever the other threads hold.

Which token a frame owns (`own`) and which tokens are in the pool (`pool`) are parameters.

## Main results

* `Exclusive.set`: the rule for one step.
* `Exclusive.notMem_pool`, `Exclusive.pool_nodup`: a token that a frame owns is not in the
  pool, and the pool holds no token twice.
-/

namespace Interleaving

variable {τ φ μ α : Type*}

/-- The tokens that the frames of a stack own. -/
def tokens (own : φ → Option α) (l : List φ) : List α :=
  l.filterMap own

@[simp] theorem tokens_append (own : φ → Option α) (l₁ l₂ : List φ) :
    tokens own (l₁ ++ l₂) = tokens own l₁ ++ tokens own l₂ :=
  List.filterMap_append

theorem mem_tokens {own : φ → Option α} {l : List φ} {a : α} :
    a ∈ tokens own l ↔ ∃ f ∈ l, own f = some a :=
  List.mem_filterMap

/-- **Exclusive ownership**: no token is owned twice, be it by two frames of one thread, by
two threads, or by a thread and the pool. -/
structure Exclusive (own : φ → Option α) (pool : μ → List α) (c : Config τ φ μ) : Prop where
  nodup : ∀ t, (tokens own (c.stack t) ++ pool c.mem).Nodup
  apart : ∀ t u a, t ≠ u → a ∈ tokens own (c.stack t) → a ∉ tokens own (c.stack u)

/-- A token that nobody owns. -/
def Unclaimed (own : φ → Option α) (pool : μ → List α) (c : Config τ φ μ) (a : α) : Prop :=
  a ∉ pool c.mem ∧ ∀ t, a ∉ tokens own (c.stack t)

section Exclusive

variable {own : φ → Option α} {pool : μ → List α} {c : Config τ φ μ}

/-- The pool holds no token twice. -/
theorem Exclusive.pool_nodup (h : Exclusive own pool c) (t : τ) : (pool c.mem).Nodup :=
  (List.nodup_append.mp (h.nodup t)).2.1

/-- A token that a frame owns is not in the pool. -/
theorem Exclusive.notMem_pool (h : Exclusive own pool c) {t : τ} {f : φ} {a : α}
    (hf : f ∈ c.stack t) (ha : own f = some a) : a ∉ pool c.mem := by
  intro hpool
  have hdisjoint := List.disjoint_of_nodup_append (h.nodup t)
  exact hdisjoint (mem_tokens.mpr ⟨f, hf, ha⟩) hpool

/-- A part of a list without repetitions has none. -/
theorem nodup_of_subperm {l₁ l₂ : List α} (h : l₁.Subperm l₂) (hl : l₂.Nodup) : l₁.Nodup := by
  obtain ⟨l, hperm, hsub⟩ := h
  exact hperm.nodup_iff.mp (hl.sublist hsub)

variable [DecidableEq τ]

/-- **The rule for one step.** A step that moves tokens between its own stack and the pool,
drops some, and brings only tokens that nobody owned keeps ownership exclusive. -/
theorem Exclusive.set (h : Exclusive own pool c) {t : τ} {popped post : List φ}
    (hs : c.stack t = popped ++ post) {r : μ × List φ} {fresh : List α}
    (hmove : (tokens own r.2 ++ pool r.1).Subperm
      (fresh ++ (tokens own popped ++ pool c.mem)))
    (hfresh : fresh.Nodup) (hnew : ∀ a ∈ fresh, Unclaimed own pool c a) :
    Exclusive own pool (c.set t r post) := by
  -- what the thread and the pool own together, after and before
  have hafter : (tokens own (r.2 ++ post) ++ pool r.1).Subperm
      (fresh ++ (tokens own (c.stack t) ++ pool c.mem)) := by
    rw [hs, tokens_append, tokens_append]
    have hpost := (List.subperm_append_left (tokens own post)).mpr hmove
    refine List.Subperm.trans (List.Perm.subperm ?_) (hpost.trans (List.Perm.subperm ?_))
    · rw [List.append_assoc]
      exact List.perm_append_comm_assoc _ _ _
    · rw [List.append_assoc]
      refine (List.perm_append_comm_assoc _ _ _).trans ?_
      exact (List.perm_append_comm_assoc _ _ _).append_left fresh
  have hbefore : (fresh ++ (tokens own (c.stack t) ++ pool c.mem)).Nodup := by
    refine List.nodup_append.mpr ⟨hfresh, h.nodup t, fun a ha b hb hab => ?_⟩
    subst hab
    rcases List.mem_append.mp hb with hb | hb
    · exact (hnew a ha).2 t hb
    · exact (hnew a ha).1 hb
  have hnodup := nodup_of_subperm hafter hbefore
  -- nothing of it belongs to another thread
  have hothers : ∀ u, u ≠ t → ∀ a ∈ tokens own (r.2 ++ post) ++ pool r.1,
      a ∉ tokens own (c.stack u) := by
    intro u hu a ha hau
    rcases List.mem_append.mp (hafter.subset ha) with hold | hold
    · exact (hnew a hold).2 u hau
    · rcases List.mem_append.mp hold with hold | hold
      · exact h.apart u t a hu hau hold
      · exact List.disjoint_of_nodup_append (h.nodup u) hau hold
  constructor
  · intro u
    by_cases hu : u = t
    · subst hu
      rw [Config.set_stack_self]
      exact hnodup
    · rw [Config.set_stack_of_ne c hu]
      refine List.nodup_append.mpr ⟨(List.nodup_append.mp (h.nodup u)).1,
        (List.nodup_append.mp hnodup).2.1, fun a ha b hb hab => ?_⟩
      subst hab
      exact hothers u hu a (List.mem_append_right _ hb) ha
  · intro u v a huv hau hav
    by_cases hu : u = t
    · subst hu
      rw [Config.set_stack_self] at hau
      rw [Config.set_stack_of_ne c huv.symm] at hav
      exact hothers v huv.symm a (List.mem_append_left _ hau) hav
    · rw [Config.set_stack_of_ne c hu] at hau
      by_cases hv : v = t
      · subst hv
        rw [Config.set_stack_self] at hav
        exact hothers u hu a (List.mem_append_left _ hav) hau
      · rw [Config.set_stack_of_ne c hv] at hav
        exact h.apart u v a huv hau hav

end Exclusive

end Interleaving
