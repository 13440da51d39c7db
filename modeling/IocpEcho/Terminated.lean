import Mathlib.Data.List.TakeWhile
import Mathlib.Tactic.Common

/-!
# Terminated Strings over a Segmented Stream

A reader of terminated strings sees of a buffer only what stands before the first
terminator. This module fixes that reading (`upToFirst`) over an arbitrary alphabet with
a distinguished terminator `z`, and answers when reading a stream segment by segment,
each segment as one terminated string, recovers the stream without its terminators.

## Main results

* `upToFirst_append_of_mem` / `upToFirst_append_of_notMem`: the reading stops inside a
  buffer exactly when the buffer holds a terminator; otherwise it runs on into whatever
  lies behind the buffer.
* `upToFirst_eq_filter_iff`: a segment is read without loss exactly when it is `Tidy`,
  that is, when its terminators stand only at its end.
* `flatten_map_upToFirst_eq_iff`: the segment-wise reading of a stream loses nothing
  exactly when every segment is tidy. No segment can make up for what another one lost.
-/

namespace Terminated

variable {α : Type*} [DecidableEq α] {z : α}

/-- What a reader of terminated strings finds in a buffer: everything before the first
terminator, or the whole buffer when there is none. -/
def upToFirst (z : α) (l : List α) : List α :=
  l.takeWhile (· ≠ z)

/-- A segment is **tidy** when no letter follows a terminator in it. -/
def Tidy (z : α) (l : List α) : Prop :=
  ∀ x ∈ l.dropWhile (· ≠ z), x = z

instance decidableTidy (l : List α) : Decidable (Tidy z l) :=
  inferInstanceAs (Decidable (∀ x ∈ l.dropWhile (· ≠ z), x = z))

/-! ### Reading one buffer -/

/-- The reading is a prefix of the buffer. -/
theorem upToFirst_prefix (l : List α) : upToFirst z l <+: l :=
  List.takeWhile_prefix _

/-- The reading holds no terminator. -/
theorem notMem_upToFirst (l : List α) : z ∉ upToFirst z l := by
  intro h
  simpa using List.mem_takeWhile_imp h

/-- A buffer without terminator is read whole. -/
theorem upToFirst_of_notMem {l : List α} (h : z ∉ l) : upToFirst z l = l := by
  refine List.takeWhile_eq_self_iff.mpr ?_
  intro x hx
  have hxz : x ≠ z := fun hc => h (hc ▸ hx)
  simpa using hxz

/-- The reading stops inside a buffer that holds a terminator. -/
theorem upToFirst_append_of_mem {l : List α} (h : z ∈ l) (r : List α) :
    upToFirst z (l ++ r) = upToFirst z l := by
  induction l with
  | nil => simp at h
  | cons a l ih =>
      by_cases ha : a = z
      · simp [upToFirst, ha]
      · have hl : z ∈ l := by
          rcases List.mem_cons.mp h with hc | hc
          · exact absurd hc.symm ha
          · exact hc
        have ih' := ih hl
        simp only [upToFirst, List.cons_append] at ih' ⊢
        rw [List.takeWhile_cons_of_pos (by simpa using ha),
          List.takeWhile_cons_of_pos (by simpa using ha), ih']

/-- The reading of a buffer without terminator runs on into what lies behind it. -/
theorem upToFirst_append_of_notMem {l : List α} (h : z ∉ l) (r : List α) :
    upToFirst z (l ++ r) = l ++ upToFirst z r := by
  refine List.takeWhile_append_of_pos ?_
  intro x hx
  have hxz : x ≠ z := fun hc => h (hc ▸ hx)
  simpa using hxz

/-- Padding a buffer with terminators does not change its reading. -/
theorem upToFirst_append_replicate (l : List α) (n : ℕ) :
    upToFirst z (l ++ List.replicate n z) = upToFirst z l := by
  by_cases h : z ∈ l
  · exact upToFirst_append_of_mem h _
  · rw [upToFirst_append_of_notMem h, upToFirst_of_notMem h]
    simp [upToFirst]

/-! ### When a reading loses nothing -/

/-- Dropping the terminators of a buffer keeps its reading and filters the rest. -/
theorem filter_eq_upToFirst_append (l : List α) :
    l.filter (· ≠ z) = upToFirst z l ++ (l.dropWhile (· ≠ z)).filter (· ≠ z) := by
  have hpre : (upToFirst z l).filter (· ≠ z) = upToFirst z l := by
    refine List.filter_eq_self.mpr ?_
    intro x hx
    have hxz : x ≠ z := fun hc => notMem_upToFirst l (hc ▸ hx)
    simpa using hxz
  have hsplit : l = upToFirst z l ++ l.dropWhile (· ≠ z) :=
    List.takeWhile_append_dropWhile.symm
  calc l.filter (· ≠ z)
      = (upToFirst z l ++ l.dropWhile (· ≠ z)).filter (· ≠ z) := by rw [← hsplit]
    _ = upToFirst z l ++ (l.dropWhile (· ≠ z)).filter (· ≠ z) := by
        rw [List.filter_append, hpre]

/-- The reading of a buffer is never longer than the buffer without its terminators. -/
theorem length_upToFirst_le (l : List α) :
    (upToFirst z l).length ≤ (l.filter (· ≠ z)).length := by
  rw [filter_eq_upToFirst_append, List.length_append]
  exact Nat.le_add_right _ _

/-- **One segment**: its reading is the segment without its terminators exactly when the
segment is tidy. -/
theorem upToFirst_eq_filter_iff {l : List α} :
    upToFirst z l = l.filter (· ≠ z) ↔ Tidy z l := by
  rw [filter_eq_upToFirst_append, List.self_eq_append_right, List.filter_eq_nil_iff]
  simp [Tidy]

/-- A segment whose reading is as long as the segment without its terminators is tidy. -/
theorem tidy_of_length_eq {l : List α}
    (h : (upToFirst z l).length = (l.filter (· ≠ z)).length) : Tidy z l := by
  refine upToFirst_eq_filter_iff.mp ?_
  rw [filter_eq_upToFirst_append, List.length_append] at h
  have hnil : (l.dropWhile (· ≠ z)).filter (· ≠ z) = [] :=
    List.length_eq_zero_iff.mp (by omega)
  rw [filter_eq_upToFirst_append, hnil, List.append_nil]

/-- Segments that are at most as long flatten to a list that is at most as long. -/
theorem length_flatten_map_le {β γ : Type*} {f g : β → List γ} {ls : List β}
    (hle : ∀ b ∈ ls, (f b).length ≤ (g b).length) :
    (ls.map f).flatten.length ≤ (ls.map g).flatten.length := by
  induction ls with
  | nil => exact le_refl _
  | cons a ls ih =>
      have ha := hle a List.mem_cons_self
      have htail := ih fun b hb => hle b (List.mem_cons_of_mem _ hb)
      simp only [List.map_cons, List.flatten_cons, List.length_append]
      omega

/-- No segment can make up for what another one lost: the flattened lengths agree only when
the lengths of all segments do. -/
theorem length_eq_of_length_flatten_eq {β γ : Type*} {f g : β → List γ} {ls : List β}
    (hle : ∀ b ∈ ls, (f b).length ≤ (g b).length)
    (hlen : (ls.map f).flatten.length = (ls.map g).flatten.length) :
    ∀ b ∈ ls, (f b).length = (g b).length := by
  induction ls with
  | nil => simp
  | cons a ls ih =>
      have ha := hle a List.mem_cons_self
      have hls : ∀ b ∈ ls, (f b).length ≤ (g b).length :=
        fun b hb => hle b (List.mem_cons_of_mem _ hb)
      have htail := length_flatten_map_le hls
      simp only [List.map_cons, List.flatten_cons, List.length_append] at hlen
      intro b hb
      rcases List.mem_cons.mp hb with rfl | hb
      · omega
      · exact ih hls (by omega) b hb

/-- **Segment-wise reading.** Reading every segment of a stream as one terminated string
gives the stream without its terminators exactly when every segment is tidy. -/
theorem flatten_map_upToFirst_eq_iff {ls : List (List α)} :
    (ls.map (upToFirst z)).flatten = ls.flatten.filter (· ≠ z) ↔ ∀ l ∈ ls, Tidy z l := by
  constructor
  · intro h
    rw [List.filter_flatten] at h
    have hall := length_eq_of_length_flatten_eq (fun l _ => length_upToFirst_le l)
      (congrArg List.length h)
    exact fun l hl => tidy_of_length_eq (hall l hl)
  · intro h
    rw [List.filter_flatten]
    congr 1
    exact List.map_congr_left fun l hl => upToFirst_eq_filter_iff.mpr (h l hl)

/-- Splitting a stream of terminated strings at its terminators gives the strings back, and
the empty rest behind the last terminator. -/
theorem splitOn_flatten_terminated {fs : List (List α)} (h : ∀ f ∈ fs, z ∉ f) :
    ((fs.map fun f => f ++ [z]).flatten).splitOn z = fs ++ [[]] := by
  induction fs with
  | nil => rfl
  | cons f fs ih =>
      have hf := h f List.mem_cons_self
      have hfs := ih fun g hg => h g (List.mem_cons_of_mem f hg)
      rw [List.map_cons, List.flatten_cons, List.append_assoc, List.singleton_append,
        List.splitOn_append_cons_self_of_not_mem hf, hfs, List.cons_append]

end Terminated
