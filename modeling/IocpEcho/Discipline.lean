import IocpEcho.Interleaving

/-!
# Counted References and Recursive Locks held by Stack Frames

Objects shared by interleaved threads carry a reference count and a recursive lock. A thread
takes a reference together with a level of the lock and leaves on its stack the frame that
will release both; while it holds the lock it may take further references, each with a frame
that will drop it. This module states that bookkeeping for any frames and any objects
(`Disciplined`), with three marks on frames (`Marks`): which object a frame *releases* (one
reference and one lock level), which object it *drops* a reference of, and which object's
lock it runs *under*.

The count of an object is what is held outside the stacks plus the references its lock owner
still has on its stack, and the depth of the lock is the number of releasing frames of its
owner. So a frame that runs under a lock pins the object: it cannot be destroyed before the
releasing frame below has run, and no other thread has a frame under the same lock.

## Main results

* `Disciplined.lock_of_held`, `Disciplined.under_unique`: a stack that still has to release a
  lock pins its object, and only one thread has frames under the lock.
* `Disciplined.keep`, `Disciplined.update`, `Disciplined.destroy`, `Disciplined.create`: the
  bookkeeping survives a step that balances its books locally.
-/

namespace Interleaving

variable {τ φ α : Type*}

/-- What a frame has to do with an object. -/
structure Marks (φ α : Type*) where
  releases : φ → Option α
  drops : φ → Option α
  under : φ → Option α

/-- The books of one object: its lock (owner and depth), its reference count, and how many
of the references are held outside the stacks. -/
structure Ledger (τ : Type*) where
  lock : Option (τ × ℕ)
  refcnt : ℕ
  outside : ℕ

/-- The lock held `d` levels deep by `t`; free when `d = 0`. -/
def lockOf (t : τ) : ℕ → Option (τ × ℕ)
  | 0 => none
  | d + 1 => some (t, d + 1)

/-- Enter the lock once more. -/
def lockBy (t : τ) : Option (τ × ℕ) → Option (τ × ℕ)
  | none => some (t, 1)
  | some (u, d) => some (u, d + 1)

/-- Leave the lock once. -/
def unlock : Option (τ × ℕ) → Option (τ × ℕ)
  | some (u, d + 2) => some (u, d + 1)
  | _ => none

/-- The lock can be entered by `t`: it is free or `t` owns it already. -/
def available [DecidableEq τ] (t : τ) : Option (τ × ℕ) → Bool
  | none => true
  | some (u, _) => u = t

@[simp] theorem lockBy_lockOf (t : τ) (d : ℕ) : lockBy t (lockOf t d) = lockOf t (d + 1) := by
  cases d <;> rfl

@[simp] theorem unlock_lockOf_succ (t : τ) (d : ℕ) :
    unlock (lockOf t (d + 1)) = lockOf t d := by
  cases d <;> rfl

section Books

variable [DecidableEq α] (M : Marks φ α)

/-- The lock levels of `p` that a stack still has to release. -/
def held (p : α) (l : List φ) : ℕ :=
  l.countP fun f => decide (M.releases f = some p)

/-- The references of `p` that a stack still has to give back. -/
def refs (p : α) (l : List φ) : ℕ :=
  held M p l + l.countP fun f => decide (M.drops f = some p)

/-- Every frame that runs under a lock or drops a counted reference has the frame that
releases that lock below it. -/
def Guarded : List φ → Prop
  | [] => True
  | f :: post =>
      (∀ p, M.under f = some p ∨ M.drops f = some p → 0 < held M p post) ∧ Guarded post

@[simp] theorem held_nil (p : α) : held M p [] = 0 := rfl

@[simp] theorem refs_nil (p : α) : refs M p [] = 0 := rfl

@[simp] theorem held_cons (p : α) (f : φ) (l : List φ) :
    held M p (f :: l) = (if M.releases f = some p then 1 else 0) + held M p l := by
  simp only [held, List.countP_cons, decide_eq_true_eq]
  omega

@[simp] theorem refs_cons (p : α) (f : φ) (l : List φ) :
    refs M p (f :: l) = (if M.releases f = some p then 1 else 0) +
      (if M.drops f = some p then 1 else 0) + refs M p l := by
  simp only [refs, held_cons, List.countP_cons, decide_eq_true_eq]
  omega

theorem held_append (p : α) (l₁ l₂ : List φ) :
    held M p (l₁ ++ l₂) = held M p l₁ + held M p l₂ := by
  simp [held, List.countP_append]

theorem refs_append (p : α) (l₁ l₂ : List φ) :
    refs M p (l₁ ++ l₂) = refs M p l₁ + refs M p l₂ := by
  simp only [refs, held_append, List.countP_append]
  omega

theorem held_le_refs (p : α) (l : List φ) : held M p l ≤ refs M p l :=
  Nat.le_add_right _ _

variable {M}

/-- A frame under a lock anywhere on a guarded stack has a releasing frame on that stack. -/
theorem Guarded.held_pos {p : α} {f : φ} {l : List φ} (hg : Guarded M l) (hf : f ∈ l)
    (hu : M.under f = some p ∨ M.drops f = some p) : 0 < held M p l := by
  induction l with
  | nil => simp at hf
  | cons g post ih =>
      have hle : held M p post ≤ held M p (g :: post) := by
        rw [held_cons]
        exact Nat.le_add_left _ _
      rcases List.mem_cons.mp hf with rfl | hf
      · exact Nat.lt_of_lt_of_le (hg.1 p hu) hle
      · exact Nat.lt_of_lt_of_le (ih hg.2 hf) hle

/-- A guarded stack that has no lock level of an object left has no reference of it left. -/
theorem Guarded.refs_eq_zero {p : α} {l : List φ} (hg : Guarded M l)
    (h : held M p l = 0) : refs M p l = 0 := by
  rw [refs, h, Nat.zero_add, List.countP_eq_zero]
  intro f hf hd
  have := hg.held_pos hf (Or.inr (of_decide_eq_true hd))
  omega

/-- Frames pushed on a guarded stack that holds every lock they run under. -/
theorem Guarded.append {fs post : List φ} (hg : Guarded M post)
    (h : ∀ f ∈ fs, ∀ p, M.under f = some p ∨ M.drops f = some p → 0 < held M p post) :
    Guarded M (fs ++ post) := by
  induction fs with
  | nil => exact hg
  | cons f fs ih =>
      rw [List.cons_append]
      refine ⟨fun p hp => ?_, ih fun g hg' => h g (List.mem_cons_of_mem _ hg')⟩
      rw [held_append]
      exact Nat.lt_of_lt_of_le (h f List.mem_cons_self p hp) (Nat.le_add_left _ _)

end Books

section Discipline

variable [DecidableEq τ] [DecidableEq α] {M : Marks φ α}

/-- The bookkeeping of all objects against all stacks. -/
structure Disciplined (M : Marks φ α) (L : α → Option (Ledger τ)) (S : τ → List φ) :
    Prop where
  guarded : ∀ t, Guarded M (S t)
  dead : ∀ p, L p = none → ∀ t, held M p (S t) = 0
  lock : ∀ p l, L p = some l → ∀ t d, l.lock = some (t, d) ↔ d = held M p (S t) ∧ 0 < d
  count_free : ∀ p l, L p = some l → l.lock = none → l.refcnt = l.outside
  count_owned : ∀ p l t d, L p = some l → l.lock = some (t, d) →
    l.refcnt = l.outside + refs M p (S t)

variable {L : α → Option (Ledger τ)} {S : τ → List φ}

/-- A stack that has lock levels of an object left belongs to the owner of its lock. -/
theorem Disciplined.lock_of_held (h : Disciplined M L S) {p : α} {t : τ}
    (ht : 0 < held M p (S t)) :
    ∃ l, L p = some l ∧ l.lock = some (t, held M p (S t)) := by
  cases hL : L p with
  | none =>
      have := h.dead p hL t
      omega
  | some l => exact ⟨l, rfl, (h.lock p l hL t _).mpr ⟨rfl, ht⟩⟩

/-- Only one thread has lock levels of an object left. -/
theorem Disciplined.held_unique (h : Disciplined M L S) {p : α} {t u : τ}
    (ht : 0 < held M p (S t)) (hu : 0 < held M p (S u)) : t = u := by
  obtain ⟨l, hl, hlt⟩ := h.lock_of_held ht
  obtain ⟨l', hl', hlu⟩ := h.lock_of_held hu
  obtain rfl : l = l' := Option.some.inj (hl.symm.trans hl')
  rw [hlt] at hlu
  exact congrArg Prod.fst (Option.some.inj hlu)

/-- Only one thread has frames under the lock of an object. -/
theorem Disciplined.under_unique (h : Disciplined M L S) {p : α} {t u : τ} {f g : φ}
    (hf : f ∈ S t) (hfp : M.under f = some p) (hg : g ∈ S u) (hgp : M.under g = some p) :
    t = u :=
  h.held_unique ((h.guarded t).held_pos hf (Or.inl hfp))
    ((h.guarded u).held_pos hg (Or.inl hgp))

/-- A lock that `t` can enter is held by nobody else, and its depth is what `t` has left. -/
theorem Disciplined.lock_eq_lockOf (h : Disciplined M L S) {p : α} {t : τ} {l : Ledger τ}
    (hl : L p = some l) (ha : available t l.lock = true) :
    l.lock = lockOf t (held M p (S t)) ∧ ∀ u, u ≠ t → held M p (S u) = 0 := by
  have hfree : ∀ u, l.lock ≠ some (u, held M p (S u)) → held M p (S u) = 0 := by
    intro u hu
    by_contra hne
    exact hu ((h.lock p l hl u _).mpr ⟨rfl, Nat.pos_of_ne_zero hne⟩)
  cases hlk : l.lock with
  | none =>
      refine ⟨?_, fun u _ => hfree u (by simp [hlk])⟩
      rw [hfree t (by simp [hlk])]
      rfl
  | some v =>
      obtain ⟨u, d⟩ := v
      have hut : u = t := by simpa [available, hlk] using ha
      subst hut
      obtain ⟨hd, hpos⟩ := (h.lock p l hl u d).mp hlk
      refine ⟨?_, fun v hv => hfree v (by simp [hlk, hv.symm])⟩
      obtain ⟨d', rfl⟩ : ∃ d', d = d' + 1 := ⟨d - 1, by omega⟩
      rw [← hd]
      rfl

/-- The count of an object whose lock `t` can enter, read off the stack of `t`. -/
theorem Disciplined.count_of_available (h : Disciplined M L S) {p : α} {t : τ} {l : Ledger τ}
    (hl : L p = some l) (ha : available t l.lock = true) :
    l.refcnt = l.outside + refs M p (S t) := by
  obtain ⟨hlk, -⟩ := h.lock_eq_lockOf hl ha
  cases hd : held M p (S t) with
  | zero =>
      rw [hd] at hlk
      rw [(h.guarded t).refs_eq_zero hd, h.count_free p l hl hlk, Nat.add_zero]
  | succ d =>
      rw [hd] at hlk
      exact h.count_owned p l t _ hl hlk

/-! ### Steps that balance the books -/

variable {t : τ} {popped post fs : List φ}

/-- The lock levels of a stack after a step that left frames `fs` for `popped`. -/
private theorem held_update (hS : S t = popped ++ post) {p : α} {u : τ}
    (hp : u = t → held M p fs = held M p popped) :
    held M p (Function.update S t (fs ++ post) u) = held M p (S u) := by
  by_cases hu : u = t
  · subst hu
    rw [Function.update_self, hS, held_append, held_append, hp rfl]
  · rw [Function.update_of_ne hu]

private theorem refs_update (hS : S t = popped ++ post) {p : α} {u : τ}
    (hp : u = t → refs M p fs = refs M p popped) :
    refs M p (Function.update S t (fs ++ post) u) = refs M p (S u) := by
  by_cases hu : u = t
  · subst hu
    rw [Function.update_self, hS, refs_append, refs_append, hp rfl]
  · rw [Function.update_of_ne hu]

private theorem guarded_update (h : ∀ u, Guarded M (S u)) (hg : Guarded M (fs ++ post))
    (u : τ) : Guarded M (Function.update S t (fs ++ post) u) := by
  by_cases hu : u = t
  · subst hu
    rw [Function.update_self]
    exact hg
  · rw [Function.update_of_ne hu]
    exact h u

/-- A step that changes no books and leaves frames with the same marks. -/
theorem Disciplined.keep (h : Disciplined M L S) (hS : S t = popped ++ post)
    (hheld : ∀ p, held M p fs = held M p popped) (hrefs : ∀ p, refs M p fs = refs M p popped)
    (hg : Guarded M (fs ++ post)) :
    Disciplined M L (Function.update S t (fs ++ post)) where
  guarded := guarded_update h.guarded hg
  dead p hp u := by
    rw [held_update hS fun _ => hheld p]
    exact h.dead p hp u
  lock p l hl u d := by
    rw [held_update hS fun _ => hheld p]
    exact h.lock p l hl u d
  count_free := h.count_free
  count_owned p l u d hl hlk := by
    rw [refs_update hS fun _ => hrefs p]
    exact h.count_owned p l u d hl hlk

/-- A step that changes the books of one object `p`, whose lock `t` can enter: the new lock
depth is what `t` then has left, and the count moves with the references. -/
theorem Disciplined.update (h : Disciplined M L S) (hS : S t = popped ++ post) {p : α}
    {l l' : Ledger τ} (hl : L p = some l) (ha : available t l.lock = true)
    (hheld : ∀ q, q ≠ p → held M q fs = held M q popped)
    (hrefs : ∀ q, q ≠ p → refs M q fs = refs M q popped)
    (hlock : l'.lock = lockOf t (held M p fs + held M p post))
    (hcount : l'.refcnt + l.outside + refs M p popped
      = l.refcnt + l'.outside + refs M p fs)
    (hg : Guarded M (fs ++ post)) :
    Disciplined M (Function.update L p (some l')) (Function.update S t (fs ++ post)) := by
  obtain ⟨-, hothers⟩ := h.lock_eq_lockOf hl ha
  have hold := h.count_of_available hl ha
  rw [hS, refs_append] at hold
  have hcountNew : l'.refcnt = l'.outside + refs M p (fs ++ post) := by
    rw [refs_append]
    omega
  rw [← held_append] at hlock
  refine ⟨guarded_update h.guarded hg, ?_, ?_, ?_, ?_⟩
  · intro q hq u
    by_cases hqp : q = p
    · subst hqp
      simp at hq
    · rw [Function.update_of_ne hqp] at hq
      rw [held_update hS fun _ => hheld q hqp]
      exact h.dead q hq u
  · intro q m hm u d
    by_cases hqp : q = p
    · subst hqp
      rw [Function.update_self, Option.some.injEq] at hm
      subst hm
      by_cases hu : u = t
      · subst hu
        rw [Function.update_self, hlock]
        cases held M q (fs ++ post) with
        | zero => simp [lockOf]
        | succ k => simp [lockOf]; omega
      · rw [Function.update_of_ne hu, hothers u hu, hlock]
        cases held M q (fs ++ post) with
        | zero => simp [lockOf]
        | succ k => simp [lockOf, Ne.symm hu]
    · rw [Function.update_of_ne hqp] at hm
      rw [held_update hS fun _ => hheld q hqp]
      exact h.lock q m hm u d
  · intro q m hm hfree
    by_cases hqp : q = p
    · subst hqp
      rw [Function.update_self, Option.some.injEq] at hm
      subst hm
      have hzero : held M q (fs ++ post) = 0 := by
        rw [hlock] at hfree
        cases hd : held M q (fs ++ post) with
        | zero => rfl
        | succ k => simp [hd, lockOf] at hfree
      rw [hcountNew, hg.refs_eq_zero hzero, Nat.add_zero]
    · rw [Function.update_of_ne hqp] at hm
      exact h.count_free q m hm hfree
  · intro q m u d hm hlk
    by_cases hqp : q = p
    · subst hqp
      rw [Function.update_self, Option.some.injEq] at hm
      subst hm
      rw [hlock] at hlk
      cases hd : held M q (fs ++ post) with
      | zero => simp [hd, lockOf] at hlk
      | succ k =>
          simp only [hd, lockOf, Option.some.injEq, Prod.mk.injEq] at hlk
          obtain ⟨rfl, -⟩ := hlk
          rw [Function.update_self]
          exact hcountNew
    · rw [Function.update_of_ne hqp] at hm
      rw [refs_update hS fun _ => hrefs q hqp]
      exact h.count_owned q m u d hm hlk

/-- A step after which an object is gone; nobody may have a lock level of it left. -/
theorem Disciplined.destroy (h : Disciplined M L S) (hS : S t = popped ++ post) {p : α}
    {l : Ledger τ} (hl : L p = some l) (ha : available t l.lock = true)
    (hheld : ∀ q, q ≠ p → held M q fs = held M q popped)
    (hrefs : ∀ q, q ≠ p → refs M q fs = refs M q popped)
    (hnone : held M p fs + held M p post = 0) (hg : Guarded M (fs ++ post)) :
    Disciplined M (Function.update L p none) (Function.update S t (fs ++ post)) := by
  obtain ⟨-, hothers⟩ := h.lock_eq_lockOf hl ha
  refine ⟨guarded_update h.guarded hg, ?_, ?_, ?_, ?_⟩
  · intro q hq u
    by_cases hqp : q = p
    · subst hqp
      by_cases hu : u = t
      · subst hu
        rw [Function.update_self, held_append, hnone]
      · rw [Function.update_of_ne hu]
        exact hothers u hu
    · rw [Function.update_of_ne hqp] at hq
      rw [held_update hS fun _ => hheld q hqp]
      exact h.dead q hq u
  · intro q m hm u d
    have hqp : q ≠ p := fun hc => by simp [hc] at hm
    rw [Function.update_of_ne hqp] at hm
    rw [held_update hS fun _ => hheld q hqp]
    exact h.lock q m hm u d
  · intro q m hm hfree
    have hqp : q ≠ p := fun hc => by simp [hc] at hm
    rw [Function.update_of_ne hqp] at hm
    exact h.count_free q m hm hfree
  · intro q m u d hm hlk
    have hqp : q ≠ p := fun hc => by simp [hc] at hm
    rw [Function.update_of_ne hqp] at hm
    rw [refs_update hS fun _ => hrefs q hqp]
    exact h.count_owned q m u d hm hlk

/-- A step that creates an object, unlocked and referenced from outside the stacks only. -/
theorem Disciplined.create (h : Disciplined M L S) (hS : S t = popped ++ post) {p : α}
    {l : Ledger τ} (hl : L p = none) (hlock : l.lock = none) (hcount : l.refcnt = l.outside)
    (hheld : ∀ q, held M q fs = held M q popped) (hrefs : ∀ q, refs M q fs = refs M q popped)
    (hg : Guarded M (fs ++ post)) :
    Disciplined M (Function.update L p (some l)) (Function.update S t (fs ++ post)) := by
  have hk := h.keep hS hheld hrefs hg
  refine ⟨hk.guarded, ?_, ?_, ?_, ?_⟩
  · intro q hq u
    by_cases hqp : q = p
    · subst hqp
      simp at hq
    · rw [Function.update_of_ne hqp] at hq
      exact hk.dead q hq u
  · intro q m hm u d
    by_cases hqp : q = p
    · subst hqp
      rw [Function.update_self, Option.some.injEq] at hm
      subst hm
      rw [hk.dead q hl u, hlock]
      constructor
      · simp
      · omega
    · rw [Function.update_of_ne hqp] at hm
      exact hk.lock q m hm u d
  · intro q m hm hfree
    by_cases hqp : q = p
    · subst hqp
      rw [Function.update_self, Option.some.injEq] at hm
      subst hm
      exact hcount
    · rw [Function.update_of_ne hqp] at hm
      exact hk.count_free q m hm hfree
  · intro q m u d hm hlk
    by_cases hqp : q = p
    · subst hqp
      rw [Function.update_self, Option.some.injEq] at hm
      subst hm
      rw [hlock] at hlk
      simp at hlk
    · rw [Function.update_of_ne hqp] at hm
      exact hk.count_owned q m u d hm hlk

end Discipline

end Interleaving
