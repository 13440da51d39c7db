import Mathlib.Data.Nat.Notation
import Mathlib.Logic.Function.Basic
import Mathlib.Tactic.Common

/-!
# Regions of Memory

A memory is made of blocks, each a function from offsets to cells. A `Region` is an interval
of one block. `slice` reads an interval, `write` is `memcpy` into one, and `slices` reads a
list of regions as one sequence of cells, the way a gathering write does. A scattering read
fills the regions in the same order, cell by cell: `cell` is the place of a cell.

## Main results

* `slice_add`: an interval in two parts.
* `slice_write_self`, `slices_write_of_avoids`: what a copy changes, and what it leaves.
* `getElem?_slices_of_cell`, `slices_write_cell`: the cells of disjoint regions are the
  entries of the sequence, for reading and for writing.
-/

namespace Regions

variable {κ α : Type*}

/-! ### One interval -/

/-- The `len` cells of a block from `start` on. -/
def slice (block : ℕ → α) (start : ℕ) : ℕ → List α
  | 0 => []
  | len + 1 => block start :: slice block (start + 1) len

@[simp] theorem slice_zero (block : ℕ → α) (start : ℕ) : slice block start 0 = [] := rfl

theorem slice_succ (block : ℕ → α) (start len : ℕ) :
    slice block start (len + 1) = block start :: slice block (start + 1) len := rfl

@[simp] theorem length_slice (block : ℕ → α) (start len : ℕ) :
    (slice block start len).length = len := by
  induction len generalizing start with
  | zero => rfl
  | succ len ih => rw [slice_succ, List.length_cons, ih]

/-- Two blocks that agree on an interval have the same cells there. -/
theorem slice_congr {block block' : ℕ → α} {start len : ℕ}
    (h : ∀ i, start ≤ i → i < start + len → block i = block' i) :
    slice block start len = slice block' start len := by
  induction len generalizing start with
  | zero => rfl
  | succ len ih =>
      rw [slice_succ, slice_succ, h start (Nat.le_refl _) (by omega)]
      exact congrArg _ (ih fun i hi hlt => h i (by omega) (by omega))

/-- An interval is its first part followed by the rest. -/
theorem slice_add (block : ℕ → α) (start m n : ℕ) :
    slice block start (m + n) = slice block start m ++ slice block (start + m) n := by
  induction m generalizing start with
  | zero => simp
  | succ m ih =>
      have hlen : m + 1 + n = (m + n) + 1 := by omega
      have hstart : start + (m + 1) = start + 1 + m := by omega
      rw [hlen, hstart, slice_succ, slice_succ, ih (start + 1)]
      rfl

/-- The first cells of an interval. -/
theorem take_slice (block : ℕ → α) (start : ℕ) {m n : ℕ} (h : m ≤ n) :
    (slice block start n).take m = slice block start m := by
  obtain ⟨d, rfl⟩ := Nat.exists_eq_add_of_le h
  rw [slice_add, List.take_append_of_le_length (by simp), List.take_of_length_le (by simp)]

/-- The cells of an interval behind the first ones. -/
theorem drop_slice (block : ℕ → α) (start : ℕ) {m n : ℕ} (h : m ≤ n) :
    (slice block start n).drop m = slice block (start + m) (n - m) := by
  obtain ⟨d, rfl⟩ := Nat.exists_eq_add_of_le h
  rw [slice_add, List.drop_append_of_le_length (by simp), List.drop_of_length_le (by simp)]
  simp

/-- The entry of an interval at an offset. -/
theorem getElem?_slice (block : ℕ → α) (start : ℕ) {len i : ℕ} (h : i < len) :
    (slice block start len)[i]? = some (block (start + i)) := by
  induction len generalizing start i with
  | zero => omega
  | succ len ih =>
      cases i with
      | zero => rfl
      | succ i =>
          rw [slice_succ, List.getElem?_cons_succ, ih (start + 1) (by omega)]
          rw [show start + 1 + i = start + (i + 1) by omega]

/-! ### Copying in one block -/

/-- A block after `data` has been copied to `start`. -/
def overwrite (block : ℕ → α) (start : ℕ) : List α → ℕ → α
  | [] => block
  | a :: data => Function.update (overwrite block (start + 1) data) start a

/-- A copy leaves what stands in front of it. -/
theorem overwrite_of_lt (block : ℕ → α) {start i : ℕ} (data : List α) (h : i < start) :
    overwrite block start data i = block i := by
  induction data generalizing start with
  | nil => rfl
  | cons a data ih =>
      rw [overwrite, Function.update_of_ne (by omega)]
      exact ih (by omega)

/-- A copy leaves what stands behind it. -/
theorem overwrite_of_ge (block : ℕ → α) {start i : ℕ} (data : List α)
    (h : start + data.length ≤ i) : overwrite block start data i = block i := by
  induction data generalizing start with
  | nil => rfl
  | cons a data ih =>
      rw [List.length_cons] at h
      rw [overwrite, Function.update_of_ne (by omega)]
      exact ih (by omega)

/-- The interval that a copy fills holds the data. -/
theorem slice_overwrite_self (block : ℕ → α) (start : ℕ) (data : List α) :
    slice (overwrite block start data) start data.length = data := by
  induction data generalizing start with
  | nil => rfl
  | cons a data ih =>
      rw [List.length_cons, slice_succ, overwrite, Function.update_self]
      have htail : slice (Function.update (overwrite block (start + 1) data) start a)
          (start + 1) data.length = slice (overwrite block (start + 1) data) (start + 1)
            data.length :=
        slice_congr fun i hi _ => Function.update_of_ne (by omega) _ _
      rw [htail, ih]

/-! ### Lists of regions -/

/-- An interval of a block. -/
structure Region (κ : Type*) where
  block : κ
  start : ℕ
  len : ℕ
  deriving DecidableEq

/-- A region has no cell among the `n` cells of block `k` from `start` on. -/
def Region.Avoids (r : Region κ) (k : κ) (start n : ℕ) : Prop :=
  r.block = k → r.start + r.len ≤ start ∨ start + n ≤ r.start

/-- Two regions have no cell in common. -/
def Region.Apart (r s : Region κ) : Prop :=
  r.Avoids s.block s.start s.len

/-- Regions of different blocks are apart. -/
theorem Region.apart_of_ne {r s : Region κ} (h : r.block ≠ s.block) : r.Apart s :=
  fun heq => absurd heq h

/-- The cells of one region. -/
def Region.cells (mem : κ → ℕ → α) (r : Region κ) : List α :=
  slice (mem r.block) r.start r.len

/-- The cells of a list of regions, one region after the other. -/
def slices (mem : κ → ℕ → α) (rs : List (Region κ)) : List α :=
  rs.flatMap (Region.cells mem)

@[simp] theorem slices_nil (mem : κ → ℕ → α) : slices mem ([] : List (Region κ)) = [] := rfl

@[simp] theorem slices_cons (mem : κ → ℕ → α) (r : Region κ) (rs : List (Region κ)) :
    slices mem (r :: rs) = r.cells mem ++ slices mem rs :=
  List.flatMap_cons

@[simp] theorem slices_append (mem : κ → ℕ → α) (rs ss : List (Region κ)) :
    slices mem (rs ++ ss) = slices mem rs ++ slices mem ss :=
  List.flatMap_append

@[simp] theorem length_cells (mem : κ → ℕ → α) (r : Region κ) :
    (r.cells mem).length = r.len :=
  length_slice _ _ _

/-- The number of cells of a list of regions. -/
def size : List (Region κ) → ℕ
  | [] => 0
  | r :: rs => r.len + size rs

@[simp] theorem size_nil : size ([] : List (Region κ)) = 0 := rfl

@[simp] theorem size_cons (r : Region κ) (rs : List (Region κ)) :
    size (r :: rs) = r.len + size rs := rfl

@[simp] theorem size_append (rs ss : List (Region κ)) :
    size (rs ++ ss) = size rs + size ss := by
  induction rs with
  | nil => exact (Nat.zero_add _).symm
  | cons r rs ih => rw [List.cons_append, size_cons, size_cons, ih, Nat.add_assoc]

@[simp] theorem length_slices (mem : κ → ℕ → α) (rs : List (Region κ)) :
    (slices mem rs).length = size rs := by
  induction rs with
  | nil => rfl
  | cons r rs ih => rw [slices_cons, List.length_append, length_cells, ih, size_cons]

/-! ### Cell by cell -/

/-- The place of the `i`-th cell of a list of regions. -/
def cell : List (Region κ) → ℕ → Option (κ × ℕ)
  | [], _ => none
  | r :: rs, i => if i < r.len then some (r.block, r.start + i) else cell rs (i - r.len)

/-- There is a cell for every entry. -/
theorem exists_cell {rs : List (Region κ)} {i : ℕ} (h : i < size rs) :
    ∃ p, cell rs i = some p := by
  induction rs generalizing i with
  | nil => exact absurd h (Nat.not_lt_zero _)
  | cons r rs ih =>
      rw [cell]
      split
      · exact ⟨_, rfl⟩
      · rw [size_cons] at h
        exact ih (by omega)

/-- A cell is in one of the regions. -/
theorem mem_of_cell {rs : List (Region κ)} {i : ℕ} {p : κ × ℕ} (h : cell rs i = some p) :
    ∃ r ∈ rs, r.block = p.1 ∧ r.start ≤ p.2 ∧ p.2 < r.start + r.len := by
  induction rs generalizing i with
  | nil => cases h
  | cons r rs ih =>
      rw [cell] at h
      split at h
      · obtain rfl := Option.some.inj h
        exact ⟨r, List.mem_cons_self, rfl, by simp, by simpa⟩
      · obtain ⟨s, hs, hcell⟩ := ih h
        exact ⟨s, List.mem_cons_of_mem r hs, hcell⟩

/-- **Gathering**: the `i`-th entry of the sequence stands in the `i`-th cell. -/
theorem getElem?_slices_of_cell {mem : κ → ℕ → α} {rs : List (Region κ)} {i : ℕ} {p : κ × ℕ}
    (h : cell rs i = some p) : (slices mem rs)[i]? = some (mem p.1 p.2) := by
  induction rs generalizing i with
  | nil => cases h
  | cons r rs ih =>
      rw [cell] at h
      rw [slices_cons]
      split at h
      case isTrue hlt =>
          obtain rfl := Option.some.inj h
          rw [List.getElem?_append_left (by simpa using hlt)]
          exact getElem?_slice _ _ hlt
      case isFalse hge =>
          rw [List.getElem?_append_right (by simpa using Nat.le_of_not_lt hge), length_cells]
          exact ih h

/-! ### Copying in a memory of blocks -/

variable [DecidableEq κ]

/-- A memory after `data` has been copied to an offset of a block. -/
def write (mem : κ → ℕ → α) (k : κ) (start : ℕ) (data : List α) : κ → ℕ → α :=
  Function.update mem k (overwrite (mem k) start data)

@[simp] theorem write_self (mem : κ → ℕ → α) (k : κ) (start : ℕ) (data : List α) :
    write mem k start data k = overwrite (mem k) start data :=
  Function.update_self k _ mem

theorem write_of_ne (mem : κ → ℕ → α) {k l : κ} (h : l ≠ k) (start : ℕ) (data : List α) :
    write mem k start data l = mem l :=
  Function.update_of_ne h _ mem

/-- Copying nothing changes nothing. -/
@[simp] theorem write_nil (mem : κ → ℕ → α) (k : κ) (start : ℕ) :
    write mem k start [] = mem :=
  Function.update_eq_self k mem

/-- The interval that a copy fills holds the data. -/
@[simp] theorem slice_write_self (mem : κ → ℕ → α) (k : κ) (start : ℕ) (data : List α) :
    slice (write mem k start data k) start data.length = data := by
  rw [write_self, slice_overwrite_self]

/-- A copy outside a region leaves its cells. -/
theorem cells_write_of_avoids {mem : κ → ℕ → α} {r : Region κ} {k : κ} {start : ℕ}
    {data : List α} (h : r.Avoids k start data.length) :
    r.cells (write mem k start data) = r.cells mem := by
  rw [Region.cells, Region.cells]
  by_cases hk : r.block = k
  · rw [hk, write_self]
    refine slice_congr fun i hi hlt => ?_
    rcases h hk with hle | hle
    · exact overwrite_of_lt _ _ (by omega)
    · exact overwrite_of_ge _ _ (by omega)
  · rw [write_of_ne _ hk]

/-- A copy outside all regions of a list leaves their cells. -/
theorem slices_write_of_avoids {mem : κ → ℕ → α} {rs : List (Region κ)} {k : κ} {start : ℕ}
    {data : List α} (h : ∀ r ∈ rs, r.Avoids k start data.length) :
    slices (write mem k start data) rs = slices mem rs := by
  induction rs with
  | nil => rfl
  | cons r rs ih =>
      rw [slices_cons, slices_cons, cells_write_of_avoids (h r List.mem_cons_self),
        ih fun s hs => h s (List.mem_cons_of_mem r hs)]

/-- **Scattering**: writing the `i`-th cell of disjoint regions sets the `i`-th entry of the
sequence and no other. -/
theorem slices_write_cell {mem : κ → ℕ → α} {rs : List (Region κ)} {i : ℕ} {p : κ × ℕ}
    (h : cell rs i = some p) (hapart : rs.Pairwise Region.Apart) (a : α) :
    slices (write mem p.1 p.2 [a]) rs = (slices mem rs).set i a := by
  induction rs generalizing i with
  | nil => cases h
  | cons r rs ih =>
      obtain ⟨hhead, htail⟩ := List.pairwise_cons.mp hapart
      rw [cell] at h
      rw [slices_cons, slices_cons]
      split at h
      case isTrue hlt =>
          obtain rfl := Option.some.inj h
          have hrest : slices (write mem r.block (r.start + i) [a]) rs = slices mem rs := by
            refine slices_write_of_avoids fun s hs hblock => ?_
            have := hhead s hs hblock.symm
            simp only [List.length_singleton]
            omega
          rw [hrest, List.set_append_left _ _ (by simpa using hlt)]
          refine congrArg (· ++ slices mem rs) (List.ext_getElem? fun j => ?_)
          by_cases hj : j < r.len
          · rw [List.getElem?_set, length_cells, Region.cells, Region.cells,
              getElem?_slice _ _ hj, getElem?_slice _ _ hj, if_pos hlt, write_self]
            by_cases hij : i = j
            · subst hij
              simp [overwrite]
            · rw [if_neg hij, overwrite, Function.update_of_ne (by omega), overwrite]
          · rw [List.getElem?_eq_none (by simpa using hj),
              List.getElem?_eq_none (by simpa using hj)]
      case isFalse hge =>
          obtain ⟨s, hs, hblock, hlo, hhi⟩ := mem_of_cell h
          have hfirst : r.cells (write mem p.1 p.2 [a]) = r.cells mem := by
            refine cells_write_of_avoids fun hr => ?_
            have := hhead s hs (hr.trans hblock.symm)
            simp only [List.length_singleton]
            omega
          rw [hfirst, ih h htail, List.set_append_right _ _ (by simpa using Nat.le_of_not_lt hge),
            length_cells]

end Regions
