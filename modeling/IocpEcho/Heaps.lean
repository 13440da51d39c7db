import Mathlib.Data.List.Nodup
import Mathlib.Data.Set.Insert
import Mathlib.Logic.Function.Basic
import Mathlib.Order.Basic
import Mathlib.Tactic.Common

/-!
# Binary Heaps whose Elements know their Place

A binary heap in an array, level by level: the parent of place `i` is `(i - 1) / 2`. The heap
is *intrusive*: every element records the place it stands at, so that an element can be taken
out of the middle without being searched for. The elements are pairwise different (they are
the addresses of records, say), and they are ordered by a key which several may share.

The two sifts move a hole: the element that is to fill it is not written before the hole has
come to rest. So the invariant of a sift is about an array with a hole: `Hole` says that the
places other than the hole hold all elements but one, each knowing its place, and `Off` says
which pairs of elements are in order meanwhile.

## Main results

* `sifted_push`: an element is added.
* `erased`: an element is taken out, wherever it stands.
* `Ordered.root_le`: the element at the root is one of the least.
* `Ordered.of_monotone`: shifting all keys alike keeps the order.
-/

namespace Heaps

variable {ε β : Type*}

/-- The array of a heap, and the place that every element records for itself. -/
structure Slots (ε : Type*) where
  p : ℕ → ε
  pos : ε → ℤ

/-- The parent of a place. -/
def parent (i : ℕ) : ℕ := (i - 1) / 2

theorem parent_lt {i : ℕ} (h : i ≠ 0) : parent i < i := by
  unfold parent
  omega

/-- The children of a place. -/
theorem eq_of_parent_eq {c i : ℕ} (hc : c ≠ 0) (h : parent c = i) :
    c = 2 * i + 1 ∨ c = 2 * i + 2 := by
  unfold parent at h
  omega

@[simp] theorem parent_left (i : ℕ) : parent (2 * i + 1) = i := by
  unfold parent
  omega

@[simp] theorem parent_right (i : ℕ) : parent (2 * i + 2) = i := by
  unfold parent
  omega

section Place

variable [DecidableEq ε]

/-- Write an element to a place, and the place to the element. -/
def Slots.place (s : Slots ε) (i : ℕ) (e : ε) : Slots ε where
  p := Function.update s.p i e
  pos := Function.update s.pos e i

/-- Take the place from an element. -/
def Slots.forget (s : Slots ε) (e : ε) : Slots ε :=
  { s with pos := Function.update s.pos e (-1) }

@[simp] theorem Slots.place_p_self (s : Slots ε) (i : ℕ) (e : ε) : (s.place i e).p i = e :=
  Function.update_self ..

theorem Slots.place_p_of_ne (s : Slots ε) {i j : ℕ} (e : ε) (h : j ≠ i) :
    (s.place i e).p j = s.p j :=
  Function.update_of_ne h ..

@[simp] theorem Slots.place_pos_self (s : Slots ε) (i : ℕ) (e : ε) : (s.place i e).pos e = i :=
  Function.update_self ..

theorem Slots.place_pos_of_ne (s : Slots ε) (i : ℕ) {e x : ε} (h : x ≠ e) :
    (s.place i e).pos x = s.pos x :=
  Function.update_of_ne h ..

@[simp] theorem Slots.forget_p (s : Slots ε) (e : ε) : (s.forget e).p = s.p := rfl

@[simp] theorem Slots.forget_pos_self (s : Slots ε) (e : ε) : (s.forget e).pos e = -1 :=
  Function.update_self ..

theorem Slots.forget_pos_of_ne (s : Slots ε) {e x : ε} (h : x ≠ e) :
    (s.forget e).pos x = s.pos x :=
  Function.update_of_ne h ..

end Place

/-! ### Which elements stand where -/

/-- The first `n` places hold the elements of `M`, each of which records its place. -/
structure Full (s : Slots ε) (n : ℕ) (M : Set ε) : Prop where
  pos : ∀ i < n, s.pos (s.p i) = i
  mem : ∀ i < n, s.p i ∈ M
  all : ∀ x ∈ M, ∃ i < n, s.p i = x

/-- The first `n` places other than `hole` hold the elements of `M` other than `e`. -/
structure Hole (s : Slots ε) (n hole : ℕ) (e : ε) (M : Set ε) : Prop where
  lt : hole < n
  self : e ∈ M
  pos : ∀ i < n, i ≠ hole → s.pos (s.p i) = i
  mem : ∀ i < n, i ≠ hole → s.p i ∈ M ∧ s.p i ≠ e
  all : ∀ x ∈ M, x ≠ e → ∃ i < n, i ≠ hole ∧ s.p i = x

/-- Different places hold different elements. -/
theorem Full.injOn {s : Slots ε} {n : ℕ} {M : Set ε} (h : Full s n M) {i j : ℕ} (hi : i < n)
    (hj : j < n) (heq : s.p i = s.p j) : i = j := by
  have hpos := h.pos i hi
  rw [heq, h.pos j hj] at hpos
  exact_mod_cast hpos.symm

/-- The place an element of the heap records is the place where it stands. -/
theorem Full.p_of_pos {s : Slots ε} {n : ℕ} {M : Set ε} (h : Full s n M) {x : ε} (hx : x ∈ M)
    {i : ℕ} (hpos : s.pos x = i) : i < n ∧ s.p i = x := by
  obtain ⟨j, hj, rfl⟩ := h.all x hx
  have hij : (i : ℤ) = j := hpos.symm.trans (h.pos j hj)
  obtain rfl : i = j := by exact_mod_cast hij
  exact ⟨hj, rfl⟩

theorem Full.pos_nonneg {s : Slots ε} {n : ℕ} {M : Set ε} (h : Full s n M) {x : ε} (hx : x ∈ M) :
    0 ≤ s.pos x := by
  obtain ⟨j, hj, rfl⟩ := h.all x hx
  rw [h.pos j hj]
  exact Int.natCast_nonneg j

/-- A full heap of some places has an element. -/
theorem Full.eq_zero_iff {s : Slots ε} {n : ℕ} {M : Set ε} (h : Full s n M) : n = 0 ↔ M = ∅ := by
  constructor
  · rintro rfl
    refine Set.eq_empty_iff_forall_notMem.mpr fun x hx => ?_
    obtain ⟨i, hi, -⟩ := h.all x hx
    exact absurd hi (Nat.not_lt_zero i)
  · intro hM
    by_contra hn
    have hmem := h.mem 0 (Nat.pos_of_ne_zero hn)
    rw [hM] at hmem
    exact hmem

/-- The elements at the first `n` places. -/
def Slots.elems (s : Slots ε) (n : ℕ) : List ε := (List.range n).map s.p

theorem Full.mem_elems {s : Slots ε} {n : ℕ} {M : Set ε} (h : Full s n M) {x : ε} :
    x ∈ s.elems n ↔ x ∈ M := by
  simp only [Slots.elems, List.mem_map, List.mem_range]
  constructor
  · rintro ⟨i, hi, rfl⟩
    exact h.mem i hi
  · exact h.all x

theorem Full.nodup {s : Slots ε} {n : ℕ} {M : Set ε} (h : Full s n M) : (s.elems n).Nodup :=
  List.Nodup.map_on (fun _ hi _ hj heq => h.injOn (List.mem_range.mp hi) (List.mem_range.mp hj) heq)
    List.nodup_range

/-- The elements of two full heaps of the same set are the same up to their order. -/
theorem Full.perm {s s' : Slots ε} {n n' : ℕ} {M : Set ε} (h : Full s n M) (h' : Full s' n' M) :
    (s.elems n).Perm (s'.elems n') :=
  (List.perm_ext_iff_of_nodup h.nodup h'.nodup).mpr fun _ => h.mem_elems.trans h'.mem_elems.symm

/-- The elements of a heap to which one has been added. -/
theorem Full.perm_insert {s s' : Slots ε} {n n' : ℕ} {e : ε} {M : Set ε} (h : Full s n M)
    (he : e ∉ M) (h' : Full s' n' (insert e M)) : (s'.elems n').Perm (e :: s.elems n) := by
  refine (List.perm_ext_iff_of_nodup h'.nodup ?_).mpr fun x => ?_
  · exact List.nodup_cons.mpr ⟨fun hmem => he (h.mem_elems.mp hmem), h.nodup⟩
  · rw [h'.mem_elems, List.mem_cons, h.mem_elems, Set.mem_insert_iff]

/-- An element behind the last place makes a hole there. -/
theorem Full.hole_push {s : Slots ε} {n : ℕ} {M : Set ε} (h : Full s n M) {e : ε} (he : e ∉ M) :
    Hole s (n + 1) n e (insert e M) where
  lt := n.lt_succ_self
  self := Set.mem_insert e M
  pos i hi hne := h.pos i (by omega)
  mem i hi hne :=
    ⟨Set.mem_insert_of_mem e (h.mem i (by omega)),
      fun heq => he (heq ▸ h.mem i (by omega))⟩
  all x hx hne := by
    obtain ⟨i, hi, rfl⟩ := h.all x (Set.mem_of_mem_insert_of_ne hx hne)
    exact ⟨i, by omega, by omega, rfl⟩

/-- Taking out an element that does not stand at the last place makes a hole in its place,
for the last one to fill. -/
theorem Full.hole_erase {s : Slots ε} {n : ℕ} {M : Set ε} (h : Full s (n + 1) M) {hole : ℕ}
    (hlt : hole < n) : Hole s n hole (s.p n) (M \ {s.p hole}) where
  lt := hlt
  self := by
    refine ⟨h.mem n n.lt_succ_self, fun heq => ?_⟩
    have := h.injOn n.lt_succ_self (hlt.trans n.lt_succ_self) heq
    omega
  pos i hi _ := h.pos i (hi.trans n.lt_succ_self)
  mem i hi hne := by
    have hi' := hi.trans n.lt_succ_self
    refine ⟨⟨h.mem i hi', fun heq => hne ?_⟩, fun heq => ?_⟩
    · exact h.injOn hi' (hlt.trans n.lt_succ_self) heq
    · have := h.injOn hi' n.lt_succ_self heq
      omega
  all x hx hne := by
    obtain ⟨i, hi, rfl⟩ := h.all x hx.1
    have hin : i ≠ n := fun heq => hne (heq ▸ rfl)
    exact ⟨i, by omega, fun heq => hx.2 (heq ▸ rfl), rfl⟩

/-- Taking out the element at the last place. -/
theorem Full.of_last {s : Slots ε} {n : ℕ} {M : Set ε} (h : Full s (n + 1) M) :
    Full s n (M \ {s.p n}) where
  pos i hi := h.pos i (hi.trans n.lt_succ_self)
  mem i hi := by
    refine ⟨h.mem i (hi.trans n.lt_succ_self), fun heq => ?_⟩
    have := h.injOn (hi.trans n.lt_succ_self) n.lt_succ_self heq
    omega
  all x hx := by
    obtain ⟨i, hi, rfl⟩ := h.all x hx.1
    have hin : i ≠ n := fun heq => hx.2 (heq ▸ rfl)
    exact ⟨i, by omega, rfl⟩

section Fill

variable [DecidableEq ε]

/-- Filling the hole from another place moves the hole there. -/
theorem Hole.move {s : Slots ε} {n hole : ℕ} {e : ε} {M : Set ε} (h : Hole s n hole e M) {j : ℕ}
    (hj : j < n) (hne : j ≠ hole) : Hole (s.place hole (s.p j)) n j e M where
  lt := hj
  self := h.self
  pos i hi hij := by
    by_cases hih : i = hole
    · subst hih
      rw [Slots.place_p_self, Slots.place_pos_self]
    · have hdiff : s.p i ≠ s.p j := by
        intro heq
        have hpos := h.pos i hi hih
        rw [heq, h.pos j hj hne] at hpos
        exact hij (by exact_mod_cast hpos.symm)
      rw [Slots.place_p_of_ne _ _ hih, Slots.place_pos_of_ne _ _ hdiff]
      exact h.pos i hi hih
  mem i hi hij := by
    by_cases hih : i = hole
    · subst hih
      rw [Slots.place_p_self]
      exact h.mem j hj hne
    · rw [Slots.place_p_of_ne _ _ hih]
      exact h.mem i hi hih
  all x hx hxe := by
    obtain ⟨i, hi, hih, rfl⟩ := h.all x hx hxe
    by_cases hij : i = j
    · subst hij
      exact ⟨hole, h.lt, hne.symm, Slots.place_p_self ..⟩
    · exact ⟨i, hi, hij, Slots.place_p_of_ne _ _ hih⟩

/-- Filling the hole with the missing element. -/
theorem Hole.fill {s : Slots ε} {n hole : ℕ} {e : ε} {M : Set ε} (h : Hole s n hole e M) :
    Full (s.place hole e) n M where
  pos i hi := by
    by_cases hih : i = hole
    · subst hih
      rw [Slots.place_p_self, Slots.place_pos_self]
    · rw [Slots.place_p_of_ne _ _ hih, Slots.place_pos_of_ne _ _ (h.mem i hi hih).2]
      exact h.pos i hi hih
  mem i hi := by
    by_cases hih : i = hole
    · subst hih
      rw [Slots.place_p_self]
      exact h.self
    · rw [Slots.place_p_of_ne _ _ hih]
      exact (h.mem i hi hih).1
  all x hx := by
    by_cases hxe : x = e
    · subst hxe
      exact ⟨hole, h.lt, Slots.place_p_self ..⟩
    · obtain ⟨i, hi, hih, rfl⟩ := h.all x hx hxe
      exact ⟨i, hi, Slots.place_p_of_ne _ _ hih⟩

/-- Forgetting the place of an element that is not in the heap. -/
theorem Full.forget {s : Slots ε} {n : ℕ} {M : Set ε} (h : Full s n M) {e : ε} (he : e ∉ M) :
    Full (s.forget e) n M where
  pos i hi := by
    rw [Slots.forget_p, Slots.forget_pos_of_ne _ fun heq : s.p i = e => he (heq ▸ h.mem i hi)]
    exact h.pos i hi
  mem := h.mem
  all := h.all

end Fill

/-! ### The order -/

section Order

variable [LinearOrder β] {key : ε → β}

/-- No element comes before its parent. -/
def Ordered (key : ε → β) (p : ℕ → ε) (n : ℕ) : Prop :=
  ∀ i < n, i ≠ 0 → key (p (parent i)) ≤ key (p i)

/-- The element at the root is one of the least. -/
theorem Ordered.root_le {p : ℕ → ε} {n : ℕ} (h : Ordered key p n) {i : ℕ} (hi : i < n) :
    key (p 0) ≤ key (p i) := by
  induction i using Nat.strongRecOn with
  | ind i ih =>
      by_cases hzero : i = 0
      · rw [hzero]
      · exact (ih _ (parent_lt hzero) ((parent_lt hzero).trans hi)).trans (h i hi hzero)

/-- A change of all keys that keeps their order keeps the heap ordered. -/
theorem Ordered.of_monotone {γ : Type*} [LinearOrder γ] {key' : ε → γ} {p : ℕ → ε} {n : ℕ}
    (h : Ordered key p n)
    (hmono : ∀ i < n, ∀ j < n, key (p i) ≤ key (p j) → key' (p i) ≤ key' (p j)) :
    Ordered key' p n :=
  fun i hi hne => hmono _ ((parent_lt hne).trans hi) i hi (h i hi hne)

/-- Every parent and child that stand at places other than the hole are in order, and so are
the parent and the children of the hole with each other. -/
structure Off (key : ε → β) (p : ℕ → ε) (n hole : ℕ) : Prop where
  off : ∀ i < n, i ≠ 0 → i ≠ hole → parent i ≠ hole → key (p (parent i)) ≤ key (p i)
  across : ∀ c < n, c ≠ 0 → parent c = hole → hole ≠ 0 → key (p (parent hole)) ≤ key (p c)

/-- An ordered heap is in order off every place. -/
theorem Ordered.toOff {p : ℕ → ε} {n : ℕ} (h : Ordered key p n) (hole : ℕ) :
    Off key p n hole where
  off i hi hne _ _ := h i hi hne
  across c hc hne hp hhole := by
    have hlt : hole < c := hp ▸ parent_lt hne
    calc key (p (parent hole)) ≤ key (p hole) := h hole (hlt.trans hc) hhole
      _ ≤ key (p c) := hp ▸ h c hc hne

theorem Off.mono {p : ℕ → ε} {m n hole : ℕ} (h : Off key p n hole) (hmn : m ≤ n) :
    Off key p m hole where
  off i hi := h.off i (by omega)
  across c hc := h.across c (by omega)

/-- An element may fill the hole once it stands between the parent and the children. -/
theorem Off.fill [DecidableEq ε] {s : Slots ε} {n hole : ℕ} {e : ε} (h : Off key s.p n hole)
    (habove : hole ≠ 0 → key (s.p (parent hole)) ≤ key e)
    (hbelow : ∀ c < n, c ≠ 0 → parent c = hole → key e ≤ key (s.p c)) :
    Ordered key (s.place hole e).p n := by
  intro i hi hne
  by_cases hih : i = hole
  · subst hih
    rw [Slots.place_p_self, Slots.place_p_of_ne _ _ (parent_lt hne).ne]
    exact habove hne
  · rw [Slots.place_p_of_ne _ _ hih]
    by_cases hp : parent i = hole
    · rw [hp, Slots.place_p_self]
      exact hbelow i hi hne hp
    · rw [Slots.place_p_of_ne _ _ hp]
      exact h.off i hi hne hih hp

/-- The hole moves to its parent, whose element comes down. -/
theorem Off.move_up [DecidableEq ε] {s : Slots ε} {n hole : ℕ} (h : Off key s.p n hole)
    (hlt : hole < n) (hne : hole ≠ 0) :
    Off key (s.place hole (s.p (parent hole))).p n (parent hole) := by
  have hp := parent_lt hne
  constructor
  · intro i hi hi0 hip hpp
    have hih : i ≠ hole := fun heq => hpp (heq ▸ rfl)
    rw [Slots.place_p_of_ne _ _ hih]
    by_cases hph : parent i = hole
    · rw [hph, Slots.place_p_self]
      exact h.across i hi hi0 hph hne
    · rw [Slots.place_p_of_ne _ _ hph]
      exact h.off i hi hi0 hih hph
  · intro c hc hc0 hcp hp0
    have hgrand : key (s.p (parent (parent hole))) ≤ key (s.p (parent hole)) :=
      h.off _ (hp.trans hlt) hp0 hp.ne ((parent_lt hp0).trans hp).ne
    rw [Slots.place_p_of_ne _ _ ((parent_lt hp0).trans hp).ne]
    by_cases hch : c = hole
    · rw [hch, Slots.place_p_self]
      exact hgrand
    · rw [Slots.place_p_of_ne _ _ hch]
      have hsibling := h.off c hc hc0 hch (hcp ▸ hp.ne)
      rw [hcp] at hsibling
      exact hgrand.trans hsibling

/-- The hole moves to the lesser of its children, whose element comes up. -/
theorem Off.move_down [DecidableEq ε] {s : Slots ε} {n hole c : ℕ} (h : Off key s.p n hole)
    (hc : c < n) (hc0 : c ≠ 0) (hcp : parent c = hole)
    (hleast : ∀ d < n, d ≠ 0 → parent d = hole → key (s.p c) ≤ key (s.p d)) :
    Off key (s.place hole (s.p c)).p n c := by
  have hlt : hole < c := hcp ▸ parent_lt hc0
  constructor
  · intro i hi hi0 hic hpc
    by_cases hih : i = hole
    · subst hih
      rw [Slots.place_p_self, Slots.place_p_of_ne _ _ (parent_lt hi0).ne]
      exact h.across c hc hc0 hcp hi0
    · rw [Slots.place_p_of_ne _ _ hih]
      by_cases hph : parent i = hole
      · rw [hph, Slots.place_p_self]
        exact hleast i hi hi0 hph
      · rw [Slots.place_p_of_ne _ _ hph]
        exact h.off i hi hi0 hih hph
  · intro d hd hd0 hdc _
    have hcd : c < d := hdc ▸ parent_lt hd0
    have hedge := h.off d hd hd0 (by omega) (by omega)
    rw [hdc] at hedge
    rw [hcp, Slots.place_p_self, Slots.place_p_of_ne _ _ (by omega)]
    exact hedge

/-! ### The sifts -/

section Sift

variable [DecidableEq ε]

/-- Move the hole up from `hole` while the parent comes behind `e`, and fill it with `e`. The
hole is at most `fuel` steps from the root. -/
def up (key : ε → β) : ℕ → Slots ε → ℕ → ε → Slots ε
  | 0, s, hole, e => s.place hole e
  | fuel + 1, s, hole, e =>
      if hole ≠ 0 ∧ key e < key (s.p (parent hole)) then
        up key fuel (s.place hole (s.p (parent hole))) (parent hole) e
      else s.place hole e

/-- The lesser child of a place whose right child is `right`; the left one if the right one is
missing. -/
def lesserChild (key : ε → β) (s : Slots ε) (n right : ℕ) : ℕ :=
  if right = n ∨ key (s.p (right - 1)) < key (s.p right) then right - 1 else right

/-- Move the hole down from `hole` while a child comes before `e`, and fill it with `e`. -/
def down (key : ε → β) (n : ℕ) : ℕ → Slots ε → ℕ → ε → Slots ε
  | 0, s, hole, e => s.place hole e
  | fuel + 1, s, hole, e =>
      if 2 * (hole + 1) ≤ n then
        if key (s.p (lesserChild key s n (2 * (hole + 1)))) < key e then
          down key n fuel (s.place hole (s.p (lesserChild key s n (2 * (hole + 1)))))
            (lesserChild key s n (2 * (hole + 1))) e
        else s.place hole e
      else s.place hole e

/-- What a sift leaves behind: the heap full again, in order, and the places recorded by the
elements that are not in it untouched. -/
structure Sifted (key : ε → β) (s s' : Slots ε) (n : ℕ) (M : Set ε) : Prop where
  full : Full s' n M
  ordered : Ordered key s'.p n
  frame : ∀ x, x ∉ M → s'.pos x = s.pos x
  behind : ∀ i, n ≤ i → s'.p i = s.p i

/-- Filling the hole where it rests. -/
theorem Hole.sifted {s : Slots ε} {n hole : ℕ} {e : ε} {M : Set ε} (h : Hole s n hole e M)
    (hord : Ordered key (s.place hole e).p n) : Sifted key s (s.place hole e) n M where
  full := h.fill
  ordered := hord
  frame x hx := Slots.place_pos_of_ne _ _ fun heq => hx (heq ▸ h.self)
  behind i hi := Slots.place_p_of_ne _ _ (by have := h.lt; omega)

/-- What a sift from a moved hole leaves behind, it leaves behind from the hole before. -/
theorem Sifted.of_move {s s' : Slots ε} {n hole j : ℕ} {e : ε} {M : Set ε}
    (h : Hole s n hole e M) (hj : j < n) (hne : j ≠ hole)
    (hs : Sifted key (s.place hole (s.p j)) s' n M) : Sifted key s s' n M where
  full := hs.full
  ordered := hs.ordered
  frame x hx := by
    rw [hs.frame x hx]
    exact Slots.place_pos_of_ne _ _ fun heq => hx (heq ▸ (h.mem j hj hne).1)
  behind i hi := by
    rw [hs.behind i hi]
    exact Slots.place_p_of_ne _ _ (by have := h.lt; omega)

/-- **Sifting up.** The element that fills the hole comes before the children of the hole. -/
theorem sifted_up {fuel : ℕ} {s : Slots ε} {n hole : ℕ} {e : ε} {M : Set ε}
    (h : Hole s n hole e M) (hoff : Off key s.p n hole)
    (hbelow : ∀ c < n, c ≠ 0 → parent c = hole → key e ≤ key (s.p c)) (hfuel : hole ≤ fuel) :
    Sifted key s (up key fuel s hole e) n M := by
  induction fuel generalizing s hole with
  | zero =>
      obtain rfl : hole = 0 := Nat.le_zero.mp hfuel
      exact h.sifted (hoff.fill (fun hne => absurd rfl hne) hbelow)
  | succ fuel ih =>
      rw [up]
      split
      · rename_i hcond
        obtain ⟨hne, hlt⟩ := hcond
        have hp := parent_lt hne
        have hpn : parent hole < n := hp.trans h.lt
        refine (ih (h.move hpn hp.ne) (hoff.move_up h.lt hne) ?_ (by omega)).of_move h hpn hp.ne
        intro c hc hc0 hcp
        by_cases hch : c = hole
        · rw [hch, Slots.place_p_self]
          exact hlt.le
        · rw [Slots.place_p_of_ne _ _ hch]
          have hsibling := hoff.off c hc hc0 hch (hcp ▸ hp.ne)
          rw [hcp] at hsibling
          exact hlt.le.trans hsibling
      · rename_i hcond
        refine h.sifted (hoff.fill (fun hne => ?_) hbelow)
        exact not_lt.mp fun hlt => hcond ⟨hne, hlt⟩

omit [DecidableEq ε] in
/-- The lesser child is a child. -/
theorem lesserChild_spec {s : Slots ε} {n hole : ℕ} (hle : 2 * (hole + 1) ≤ n) :
    lesserChild key s n (2 * (hole + 1)) < n ∧ lesserChild key s n (2 * (hole + 1)) ≠ 0 ∧
      parent (lesserChild key s n (2 * (hole + 1))) = hole := by
  unfold lesserChild parent
  split <;> omega

omit [DecidableEq ε] in
/-- No child comes before the lesser child. -/
theorem lesserChild_le {s : Slots ε} {n hole : ℕ} {c : ℕ} (hc : c < n) (hc0 : c ≠ 0)
    (hcp : parent c = hole) :
    key (s.p (lesserChild key s n (2 * (hole + 1)))) ≤ key (s.p c) := by
  have hchild := eq_of_parent_eq hc0 hcp
  have hleft : 2 * (hole + 1) - 1 = 2 * hole + 1 := by omega
  have hright : 2 * (hole + 1) = 2 * hole + 2 := by omega
  unfold lesserChild
  split
  · rename_i hcond
    rw [hleft]
    rcases hchild with rfl | rfl
    · exact le_rfl
    · rw [hleft, hright] at hcond
      rcases hcond with hlast | hlt
      · omega
      · exact hlt.le
  · rename_i hcond
    rw [hleft] at hcond
    rcases hchild with rfl | rfl
    · exact not_lt.mp fun hlt => hcond (Or.inr hlt)
    · rw [hright]

/-- **Sifting down.** The element that fills the hole comes behind the parent of the hole. -/
theorem sifted_down {fuel : ℕ} {s : Slots ε} {n hole : ℕ} {e : ε} {M : Set ε}
    (h : Hole s n hole e M) (hoff : Off key s.p n hole)
    (habove : hole ≠ 0 → key (s.p (parent hole)) ≤ key e) (hfuel : n ≤ hole + fuel) :
    Sifted key s (down key n fuel s hole e) n M := by
  induction fuel generalizing s hole with
  | zero => exact absurd h.lt (by omega)
  | succ fuel ih =>
      rw [down]
      split
      · rename_i hle
        obtain ⟨hc, hc0, hcp⟩ := @lesserChild_spec _ _ _ key s n hole hle
        have hleast : ∀ d < n, d ≠ 0 → parent d = hole → _ ≤ _ :=
          fun d => @lesserChild_le _ _ _ key s n hole d
        have hlt : hole < lesserChild key s n (2 * (hole + 1)) :=
          lt_of_eq_of_lt hcp.symm (parent_lt hc0)
        split
        · rename_i hbefore
          refine (ih (h.move hc hlt.ne') (hoff.move_down hc hc0 hcp hleast) (fun _ => ?_)
            (by omega)).of_move h hc hlt.ne'
          rw [hcp, Slots.place_p_self]
          exact hbefore.le
        · rename_i hnot
          refine h.sifted (hoff.fill habove fun c hc' hc0' hcp' => ?_)
          exact (not_lt.mp hnot).trans (hleast c hc' hc0' hcp')
      · rename_i hle
        refine h.sifted (hoff.fill habove fun c hc hc0 hcp => ?_)
        rcases eq_of_parent_eq hc0 hcp with rfl | rfl <;> omega

/-! ### Adding and taking out -/

/-- Add an element behind the last one. -/
def push (key : ε → β) (n : ℕ) (s : Slots ε) (e : ε) : Slots ε := up key n s n e

/-- Let the last of `n + 1` elements take the place `hole`, and sift it to where it belongs:
up if it comes before the parent of the hole, else down. -/
def replace (key : ε → β) (n : ℕ) (s : Slots ε) (hole : ℕ) : Slots ε :=
  if hole ≠ 0 ∧ key (s.p n) < key (s.p (parent hole)) then up key hole s hole (s.p n)
  else down key n n s hole (s.p n)

theorem replace_of_lt {s : Slots ε} {n hole : ℕ} (hne : hole ≠ 0)
    (h : key (s.p n) < key (s.p (parent hole))) :
    replace key n s hole = up key hole s hole (s.p n) :=
  if_pos ⟨hne, h⟩

theorem replace_of_not_lt {s : Slots ε} {n hole : ℕ}
    (h : hole ≠ 0 → ¬ key (s.p n) < key (s.p (parent hole))) :
    replace key n s hole = down key n n s hole (s.p n) :=
  if_neg fun hc => h hc.1 hc.2

/-- **Adding.** The heap holds the new element besides those it held. -/
theorem sifted_push {s : Slots ε} {n : ℕ} {e : ε} {M : Set ε} (h : Full s n M)
    (hord : Ordered key s.p n) (he : e ∉ M) :
    Sifted key s (push key n s e) (n + 1) (insert e M) := by
  have hnone : ∀ c < n + 1, c ≠ 0 → parent c ≠ n := fun c hc hc0 hcp => by
    have := eq_of_parent_eq hc0 hcp
    omega
  refine sifted_up (h.hole_push he) ⟨fun i hi hne hin _ => hord i (by omega) hne, ?_⟩ ?_ le_rfl
  · exact fun c hc hc0 hcp => absurd hcp (hnone c hc hc0)
  · exact fun c hc hc0 hcp => absurd hcp (hnone c hc hc0)

/-- **Replacing.** The heap holds the elements it held but the one at the place. The last
element comes before the parent of the place or behind it, and in the first case also before
the children, which come behind the parent. -/
theorem sifted_replace {s : Slots ε} {n hole : ℕ} {M : Set ε} (h : Full s (n + 1) M)
    (hord : Ordered key s.p (n + 1)) (hlt : hole < n) :
    Sifted key s (replace key n s hole) n (M \ {s.p hole}) := by
  have hhole := h.hole_erase hlt
  have hoff : Off key s.p n hole := (hord.toOff hole).mono n.le_succ
  by_cases hcond : hole ≠ 0 ∧ key (s.p n) < key (s.p (parent hole))
  · obtain ⟨hne, hbefore⟩ := hcond
    rw [replace_of_lt hne hbefore]
    refine sifted_up hhole hoff (fun c hc hc0 hcp => ?_) le_rfl
    exact hbefore.le.trans (hoff.across c hc hc0 hcp hne)
  · have hnot := fun hne hbefore => hcond ⟨hne, hbefore⟩
    rw [replace_of_not_lt hnot]
    exact sifted_down hhole hoff (fun hne => not_lt.mp (hnot hne)) (Nat.le_add_left n hole)

/-- Replacing the last element by itself leaves the places before it alone. -/
theorem replace_last {s : Slots ε} {n : ℕ} (hord : Ordered key s.p (n + 1)) :
    replace key n s n = s.place n (s.p n) := by
  rw [replace_of_not_lt fun hne => (hord n n.lt_succ_self hne).not_gt]
  cases n with
  | zero => rfl
  | succ n => rw [down, if_neg (by omega)]

/-- Take the element at the place `hole` out of a heap of `n + 1`. -/
def erase (key : ε → β) (n : ℕ) (s : Slots ε) (hole : ℕ) : Slots ε :=
  (replace key n s hole).forget (s.p hole)

/-- **Taking out.** The heap holds the elements it held but the one taken out, wherever it
stood, and that one records no place any more. -/
theorem erased {s : Slots ε} {n hole : ℕ} {M : Set ε} (h : Full s (n + 1) M)
    (hord : Ordered key s.p (n + 1)) (hlt : hole < n + 1) :
    Full (erase key n s hole) n (M \ {s.p hole}) ∧
      Ordered key (erase key n s hole).p n ∧
      (erase key n s hole).pos (s.p hole) = -1 ∧
      ∀ x, x ∉ M → (erase key n s hole).pos x = s.pos x := by
  have hmem := h.mem hole hlt
  have hout : s.p hole ∉ M \ {s.p hole} := fun hx => hx.2 rfl
  rcases Nat.lt_succ_iff_lt_or_eq.mp hlt with hlt' | rfl
  · have hs := sifted_replace h hord hlt'
    refine ⟨hs.full.forget hout, hs.ordered, Slots.forget_pos_self .., fun x hx => ?_⟩
    rw [erase, Slots.forget_pos_of_ne _ fun heq : x = s.p hole => hx (heq ▸ hmem)]
    exact hs.frame x fun hx' => hx hx'.1
  · have hp : ∀ i < hole, (s.place hole (s.p hole)).p i = s.p i := fun i hi =>
      Slots.place_p_of_ne _ _ hi.ne
    rw [erase, replace_last hord]
    refine ⟨?_, fun i hi hne => ?_, Slots.forget_pos_self .., fun x hx => ?_⟩
    · have hfull := h.of_last
      refine Full.forget ⟨fun i hi => ?_, fun i hi => hp i hi ▸ hfull.mem i hi, fun x hx => ?_⟩ hout
      · have hne : s.p i ≠ s.p hole := fun heq => (hfull.mem i hi).2 heq
        rw [hp i hi, Slots.place_pos_of_ne _ _ hne]
        exact hfull.pos i hi
      · obtain ⟨i, hi, rfl⟩ := hfull.all x hx
        exact ⟨i, hi, hp i hi⟩
    · rw [Slots.forget_p, hp i hi, hp _ ((parent_lt hne).trans hi)]
      exact hord i (hi.trans hole.lt_succ_self) hne
    · have hne : x ≠ s.p hole := fun heq => hx (heq ▸ hmem)
      rw [Slots.forget_pos_of_ne _ hne, Slots.place_pos_of_ne _ _ hne]

end Sift

end Order

end Heaps
