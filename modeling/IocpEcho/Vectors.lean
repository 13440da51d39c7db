import IocpEcho.Pins
import Mathlib.Data.List.Forall2

/-!
# The Vectors of a Read

`_evbuffer_expand_fast` and `_evbuffer_read_setup_vecs` turn the free space at the end of an
evbuffer into the vectors of a read; `evbuffer_commit_read` counts the bytes that have come
back into the chains. `evbuffer_launch_read` pins every chain from the first vector on and
asserts that it has pinned one chain for each vector. That holds because there is never a
chain too many: without the last chain the space would not do (`spaces cs.dropLast < m`).

## Main results

* `setupVecs_eq`: one vector for each chain, when the space is just enough.
* `commitLoop_eq`: the bytes in the vectors become bytes of the queue, in order.
-/

namespace IocpEcho

open Regions

/-! ### Lists related entry by entry -/

section Related

variable {α β : Type*} {R : α → β → Prop}

/-- Every entry on the right has a partner. -/
theorem exists_left_of_mem {as : List α} {bs : List β} (h : List.Forall₂ R as bs) {b : β}
    (hb : b ∈ bs) : ∃ a ∈ as, R a b := by
  induction h with
  | nil => cases hb
  | cons hab _ ih =>
      rcases List.mem_cons.mp hb with rfl | hb
      · exact ⟨_, List.mem_cons_self, hab⟩
      · obtain ⟨a, ha, hr⟩ := ih hb
        exact ⟨a, List.mem_cons_of_mem _ ha, hr⟩

/-- Every entry on the left has a partner. -/
theorem exists_right_of_mem {as : List α} {bs : List β} (h : List.Forall₂ R as bs) {a : α}
    (ha : a ∈ as) : ∃ b ∈ bs, R a b :=
  exists_left_of_mem h.flip ha

end Related

/-! ### One vector for each chain -/

/-- A vector is the beginning of the free space of a chain. -/
structure IsVec (c : EvbufferChain) (b : Region ℕ) : Prop where
  block : b.block = c.addr
  start : b.start = c.misalign + c.off
  le : b.len ≤ c.spaceLen
  pos : 0 < b.len

/-- **One vector for each chain**: `_evbuffer_read_setup_vecs` uses all chains when their
space is enough, and would not be without the last one. -/
theorem setupVecs_eq {cs : List EvbufferChain} {n m : ℕ} (hpos : ∀ c ∈ cs, 0 < c.spaceLen)
    (hm : 0 < m) (hlen : cs.length ≤ n) (henough : m ≤ spaces cs)
    (htight : spaces cs.dropLast < m) :
    ∃ bs, Evbuffer.setupVecs true cs n m = some bs ∧ List.Forall₂ IsVec cs bs ∧
      size bs = m := by
  induction cs generalizing n m with
  | nil => exact absurd henough (by simp; omega)
  | cons c cs ih =>
      obtain ⟨n, rfl⟩ : ∃ k, n = k + 1 := ⟨n - 1, by simp at hlen; omega⟩
      have hc := hpos c List.mem_cons_self
      rw [Evbuffer.setupVecs, if_neg (by omega)]
      dsimp only
      rw [if_pos rfl]
      have hvec : IsVec c ⟨c.addr, c.misalign + c.off, min c.spaceLen m⟩ :=
        ⟨rfl, rfl, Nat.min_le_left _ _, by simp only; omega⟩
      cases cs with
      | nil =>
          have hmin : min c.spaceLen m = m := by simp at henough; omega
          have hzero : m - min c.spaceLen m = 0 := by omega
          have hsize : size [(⟨c.addr, c.misalign + c.off, min c.spaceLen m⟩ : Region ℕ)] = m :=
            (size_cons _ _).trans hmin
          rw [hzero]
          cases n <;> exact ⟨_, rfl, List.Forall₂.cons hvec List.Forall₂.nil, hsize⟩
      | cons d cs =>
          rw [List.dropLast_cons_cons, spaces_cons] at htight
          rw [spaces_cons] at henough
          have hmin : min c.spaceLen m = c.spaceLen := by omega
          obtain ⟨bs, hbs, hvecs, hsize⟩ := ih (n := n) (m := m - min c.spaceLen m)
            (fun e he => hpos e (List.mem_cons_of_mem c he)) (by omega)
            (by simpa using hlen) (by omega) (by omega)
          rw [hbs]
          refine ⟨_, rfl, List.Forall₂.cons hvec hvecs, ?_⟩
          rw [size_cons, hsize]
          dsimp only
          omega

/-- The vectors of different chains are apart. -/
theorem pairwise_apart {cs : List EvbufferChain} {bs : List (Region ℕ)}
    (h : List.Forall₂ IsVec cs bs) (hnodup : (cs.map EvbufferChain.addr).Nodup) :
    bs.Pairwise Region.Apart := by
  have hblocks : bs.map Region.block = cs.map EvbufferChain.addr := by
    induction h with
    | nil => rfl
    | cons hvec _ ih =>
        rw [List.map_cons, List.map_cons, hvec.block, ih (List.nodup_cons.mp hnodup).2]
  rw [← hblocks] at hnodup
  exact (List.pairwise_map.mp hnodup).imp Region.apart_of_ne

/-- Draining and marking chains does not move their free space. -/
theorem IsVec.of_advance {c : EvbufferChain} {b : Region ℕ} (h : IsVec c b) {k : ℕ}
    (hk : k ≤ c.off) : IsVec (c.advance k) b := by
  refine ⟨h.block, ?_, ?_, h.pos⟩
  · have := h.start
    simp only [EvbufferChain.advance]
    omega
  · rw [c.spaceLen_advance hk]
    exact h.le

theorem IsVec.mark {c : EvbufferChain} {b : Region ℕ} (h : IsVec c b) (v : Bool)
    (flag : PinFlag) : IsVec (c.mark v flag) b := by
  refine ⟨?_, ?_, ?_, h.pos⟩
  · rw [EvbufferChain.mark_addr, h.block]
  · rw [EvbufferChain.mark_misalign, EvbufferChain.mark_off, h.start]
  · rw [EvbufferChain.mark_spaceLen]
    exact h.le

/-! ### Counting the bytes in -/

/-- A chain with some of its free space turned into data. -/
def Grown (c d : EvbufferChain) : Prop :=
  ∃ n, n ≤ c.spaceLen ∧ d = c.extend n

theorem Grown.refl (c : EvbufferChain) : Grown c c :=
  ⟨0, Nat.zero_le _, rfl⟩

/-- Growing chains does not change their places. -/
theorem map_addr_of_grown {cs ds : List EvbufferChain} (h : List.Forall₂ Grown cs ds) :
    ds.map EvbufferChain.addr = cs.map EvbufferChain.addr := by
  induction h with
  | nil => rfl
  | cons hg _ ih =>
      obtain ⟨n, -, rfl⟩ := hg
      rw [List.map_cons, List.map_cons, ih]
      rfl

/-- Growing chains takes of their space. -/
theorem spaces_dropLast_of_grown {cs ds : List EvbufferChain} (h : List.Forall₂ Grown cs ds) :
    spaces ds.dropLast ≤ spaces cs.dropLast := by
  induction h with
  | nil => exact Nat.le_refl _
  | @cons c d cs ds hg hrest ih =>
      obtain ⟨n, -, rfl⟩ := hg
      cases hrest with
      | nil => exact Nat.le_refl _
      | cons _ _ =>
          rw [List.dropLast_cons_cons, List.dropLast_cons_cons, spaces_cons, spaces_cons,
            EvbufferChain.spaceLen_extend]
          omega

/-- What the loop of `evbuffer_commit_read` leaves. -/
structure Committed (mem : ℕ → ℕ → Byte) (cs : List EvbufferChain) (bs : List (Region ℕ)) (n : ℕ)
    (filled rest : List EvbufferChain) : Prop where
  grown : List.Forall₂ Grown cs (filled ++ rest)
  queue_eq : queue mem (filled ++ rest) = queue mem cs ++ (slices mem bs).take n
  suffix : rest <:+ cs
  shorter : filled ≠ [] → rest <:+ cs.tail
  filled_eq : n = 0 → filled = [] ∧ rest = cs
  last : 0 < n → ∃ c ∈ filled.getLast?, c.off ≠ 0

/-- **Counting in**: the first `n` bytes of the vectors become the last bytes of the queue.
Behind the first chain there is no data yet. -/
theorem commitLoop_eq {mem : ℕ → ℕ → Byte} {cs : List EvbufferChain} {bs : List (Region ℕ)}
    {n : ℕ} (h : List.Forall₂ IsVec cs bs) (htail : ∀ c ∈ cs.tail, c.off = 0)
    (hn : n ≤ size bs) :
    ∃ filled rest, EvbufferOverlapped.commitLoop bs n cs = some (filled, rest) ∧
      Committed mem cs bs n filled rest := by
  induction h generalizing n with
  | nil =>
      obtain rfl : n = 0 := Nat.le_zero.mp hn
      exact ⟨[], [], rfl, List.Forall₂.nil, rfl, ⟨[], rfl⟩, fun hne => absurd rfl hne,
        fun _ => ⟨rfl, rfl⟩, fun hpos => absurd hpos (Nat.lt_irrefl 0)⟩
  | @cons c b cs bs hvec hvecs ih =>
      rw [EvbufferOverlapped.commitLoop]
      by_cases hzero : n = 0
      · subst hzero
        refine ⟨[], c :: cs, if_pos rfl, ?_, by simp, ⟨[], rfl⟩, fun hne => absurd rfl hne,
          fun _ => ⟨rfl, rfl⟩, fun hpos => absurd hpos (Nat.lt_irrefl 0)⟩
        exact List.forall₂_same.mpr fun d _ => Grown.refl d
      · rw [if_neg hzero]
        dsimp only
        rw [size_cons] at hn
        have hcs : ∀ d ∈ cs, d.off = 0 := htail
        have hcs' : ∀ d ∈ cs.tail, d.off = 0 := fun d hd => hcs d (List.mem_of_mem_tail hd)
        obtain ⟨filled, rest, heq, hcom⟩ := ih hcs' (n := n - min n b.len) (by omega)
        rw [heq]
        refine ⟨c.extend (min n b.len) :: filled, rest, rfl, ?_, ?_, ?_, ?_, ?_, ?_⟩
        · exact List.Forall₂.cons ⟨_, by have := hvec.le; omega, rfl⟩ hcom.grown
        · have hcells : (b.cells mem).take n =
              slice (mem c.addr) (c.misalign + c.off) (min n b.len) := by
            rw [Region.cells, hvec.block, hvec.start]
            by_cases hle : n ≤ b.len
            · rw [take_slice _ _ hle, Nat.min_eq_left hle]
            · rw [List.take_of_length_le (by rw [length_slice]; omega), Nat.min_eq_right (by omega)]
          have hsub : n - min n b.len = n - b.len := by omega
          rw [List.cons_append, queue_cons, queue_cons, EvbufferChain.cells_extend,
            hcom.queue_eq, queue_eq_nil hcs, slices_cons, List.take_append, length_cells,
            hcells, hsub]
          simp
        · exact hcom.suffix.trans (List.suffix_cons c cs)
        · exact fun _ => hcom.suffix
        · exact fun hz => absurd hz hzero
        · intro _
          by_cases hmore : 0 < n - min n b.len
          · obtain ⟨d, hd, hoff⟩ := hcom.last hmore
            refine ⟨d, ?_, hoff⟩
            rw [List.getLast?_cons, hd]
            rfl
          · have hnil := (hcom.filled_eq (by omega)).1
            subst hnil
            refine ⟨_, rfl, ?_⟩
            have := hvec.pos
            change c.off + min n b.len ≠ 0
            omega

/-! ### Making room -/

/-- The chains from `*firstchainp` on: `*last_with_datap` is left out when it is full. -/
def vecChains : List EvbufferChain → List EvbufferChain
  | [] => []
  | c :: cs => if c.spaceLen = 0 then cs else c :: cs

/-- Between two reads of `m` bytes, the chains that have never had data could not take such a
read without the last of them. -/
structure Ready (m : ℕ) (after : List EvbufferChain) : Prop where
  head : ∀ c ∈ after.head?, c.off ≠ 0
  tail : ∀ c ∈ after.tail, c.off = 0 ∧ c.misalign = 0 ∧ 0 < c.spaceLen
  tight : spaces after.dropLast < m

/-- The chains for a read of `m` bytes into at most `n` vectors: one vector for each, and
none too many. -/
structure Roomy (m n : ℕ) (cs : List EvbufferChain) : Prop where
  pos : ∀ c ∈ cs, 0 < c.spaceLen
  length_le : cs.length ≤ n
  enough : m ≤ spaces cs
  tight : spaces cs.dropLast < m

/-- The list of chains after `_evbuffer_expand_fast`: some trailing chains without data are
gone, and one new chain may have come. -/
def Extended (after : List EvbufferChain) (addr : ℕ) (after' : List EvbufferChain)
    (addr' : ℕ) : Prop :=
  ∃ kept gone fresh, after = kept ++ gone ∧ after' = kept ++ fresh ∧ (kept = [] → gone = []) ∧
    ((fresh = [] ∧ addr' = addr) ∨
      ∃ tmp m, fresh = [tmp] ∧ tmp.IsNew addr m ∧ 0 < m ∧ addr' = addr + 1)

/-- The loop of `_evbuffer_expand_fast` behind `*last_with_datap`. -/
theorem expandLoop_tail {m n : ℕ} {cs : List EvbufferChain} {avail used : ℕ}
    (hcs : ∀ c ∈ cs, c.off = 0 ∧ c.misalign = 0 ∧ 0 < c.spaceLen) (havail : avail < m)
    (hused : used < n) (htight : avail + spaces cs.dropLast < m) :
    ∃ room, Evbuffer.expandLoop m n false cs avail used = some (cs, room) ∧
      ((room = .enough ∧ m ≤ avail + spaces cs ∧ used + cs.length ≤ n) ∨
        (room = .short (avail + spaces cs) (used + cs.length) ∧ used + cs.length < n ∧
          avail + spaces cs < m) ∨
        ∃ a, room = .short a n) := by
  induction cs generalizing avail used with
  | nil => exact ⟨_, rfl, Or.inr (Or.inl ⟨rfl, hused, havail⟩)⟩
  | cons c cs ih =>
      obtain ⟨hoff, hmis, -⟩ := hcs c List.mem_cons_self
      have hself : { c with misalign := 0 } = c := by
        rw [← hmis]
      have hspace : c.bufferLen = c.spaceLen := by
        rw [EvbufferChain.spaceLen, hoff, hmis]
        omega
      rw [Evbuffer.expandLoop, if_neg (by simpa using hoff), hself, spaces_cons]
      dsimp only
      rw [hspace]
      by_cases henough : m ≤ avail + c.spaceLen
      · rw [if_pos henough]
        refine ⟨.enough, rfl, Or.inl ⟨rfl, by omega, ?_⟩⟩
        cases cs with
        | nil => exact hused
        | cons d cs =>
            rw [List.dropLast_cons_cons, spaces_cons] at htight
            omega
      · rw [if_neg henough]
        by_cases hfull : used + 1 = n
        · rw [if_pos hfull]
          exact ⟨_, rfl, Or.inr (Or.inr ⟨_, by rw [hfull]⟩)⟩
        · rw [if_neg hfull]
          have htight' : avail + c.spaceLen + spaces cs.dropLast < m := by
            cases cs with
            | nil => simpa using Nat.lt_of_not_le henough
            | cons d cs =>
                rw [List.dropLast_cons_cons, spaces_cons] at htight
                omega
          have havail' : avail + c.spaceLen < m := Nat.lt_of_not_le henough
          have hused' : used + 1 < n := by omega
          obtain ⟨room, heq, hroom⟩ :=
            ih (fun d hd => hcs d (List.mem_cons_of_mem c hd)) havail' hused' htight'
          refine ⟨room, by rw [heq]; rfl, ?_⟩
          rw [List.length_cons, show used + (cs.length + 1) = used + 1 + cs.length by omega,
            ← Nat.add_assoc]
          exact hroom

/-- The loop of `_evbuffer_expand_fast` in a buffer that is ready: it leaves the chains as they
are, and either they are just right or the space is missing. -/
theorem expandLoop_eq {m n : ℕ} {c : EvbufferChain} {cs : List EvbufferChain}
    (h : Ready m (c :: cs)) (hn : 2 ≤ n) :
    ∃ room, Evbuffer.expandLoop m n true (c :: cs) 0 0 = some (c :: cs, room) ∧
      ((room = .enough ∧ Roomy m n (vecChains (c :: cs))) ∨
        (∃ avail used, room = .short avail used ∧ used = (vecChains (c :: cs)).length ∧
          used < n ∧ avail = spaces (vecChains (c :: cs)) ∧ avail < m) ∨
        ((∃ a, room = .short a n) ∧ c.spaceLen < m)) := by
  have hoff : c.off ≠ 0 := h.head c rfl
  have hm : 0 < m := Nat.lt_of_le_of_lt (Nat.zero_le _) h.tight
  have hcs : ∀ d ∈ cs, d.off = 0 ∧ d.misalign = 0 ∧ 0 < d.spaceLen := h.tail
  have htight := h.tight
  rw [Evbuffer.expandLoop, if_pos hoff, if_pos rfl]
  dsimp only
  rw [Nat.zero_add, Nat.zero_add]
  by_cases henough : m ≤ c.spaceLen
  · have hnil : cs = [] := by
      cases cs with
      | nil => rfl
      | cons d cs =>
          rw [List.dropLast_cons_cons, spaces_cons] at htight
          omega
    subst hnil
    refine ⟨.enough, if_pos henough, Or.inl ⟨rfl, ?_⟩⟩
    rw [vecChains, if_neg (by omega)]
    exact ⟨fun d hd => by rw [List.mem_singleton.mp hd]; omega, by simp; omega,
      by simpa using henough, by simpa using hm⟩
  · rw [if_neg henough]
    have havail : c.spaceLen < m := Nat.lt_of_not_le henough
    have hused : (if c.spaceLen = 0 then 0 else 1) < n := by split <;> omega
    rw [if_neg (Nat.ne_of_lt hused)]
    have hlast : c.spaceLen + spaces cs.dropLast < m := by
      cases cs with
      | nil => simpa using Nat.lt_of_not_le henough
      | cons d cs => simpa using htight
    obtain ⟨room, heq, hroom⟩ := expandLoop_tail hcs havail hused hlast
    have hvec : (vecChains (c :: cs)).length = (if c.spaceLen = 0 then 0 else 1) + cs.length ∧
        spaces (vecChains (c :: cs)) = c.spaceLen + spaces cs := by
      rw [vecChains]
      split
      case isTrue hz => exact ⟨by omega, by omega⟩
      case isFalse hz => exact ⟨by rw [List.length_cons]; omega, spaces_cons c cs⟩
    refine ⟨room, by rw [heq]; rfl, ?_⟩
    rcases hroom with ⟨rfl, hle, hlen⟩ | ⟨rfl, hlen, hlt⟩ | ⟨a, rfl⟩
    · refine Or.inl ⟨rfl, ?_, by omega, by omega, ?_⟩
      · rw [vecChains]
        split
        case isTrue hz => exact fun d hd => (hcs d hd).2.2
        case isFalse hz =>
            intro d hd
            rcases List.mem_cons.mp hd with rfl | hd
            · omega
            · exact (hcs d hd).2.2
      · rw [vecChains]
        split
        case isTrue hz => omega
        case isFalse hz => exact htight
    · exact Or.inr (Or.inl ⟨_, _, rfl, hvec.1.symm, hlen, hvec.2.symm, hlt⟩)
    · exact Or.inr (Or.inr ⟨⟨a, rfl⟩, by omega⟩)

/-- A chain more, when the space is missing and a vector is left. -/
theorem roomy_concat {m n : ℕ} {cs : List EvbufferChain} {tmp : EvbufferChain}
    (hpos : ∀ c ∈ cs, 0 < c.spaceLen) (hlen : cs.length < n) (hlt : spaces cs < m)
    (hle : m - spaces cs ≤ tmp.spaceLen) : Roomy m n (cs ++ [tmp]) := by
  refine ⟨fun c hc => ?_, by rw [List.length_append, List.length_singleton]; omega, ?_, ?_⟩
  · rcases List.mem_append.mp hc with hc | hc
    · exact hpos c hc
    · rw [List.mem_singleton.mp hc]
      omega
  · rw [spaces_append, spaces_cons]
    omega
  · rw [List.dropLast_concat]
    exact hlt

/-- Chains added at the end are chains for the read. -/
theorem vecChains_append (c : EvbufferChain) (cs ds : List EvbufferChain) :
    vecChains (c :: cs ++ ds) = vecChains (c :: cs) ++ ds := by
  rw [List.cons_append, vecChains, vecChains]
  split <;> rfl

/-- The chains for the read that have never had data have space. -/
theorem Ready.vecChains_pos {m : ℕ} {after : List EvbufferChain} (h : Ready m after) :
    ∀ c ∈ vecChains after, 0 < c.spaceLen := by
  cases after with
  | nil => exact List.forall_mem_nil _
  | cons c cs =>
      rw [vecChains]
      split
      case isTrue hz => exact fun d hd => (h.tail d hd).2.2
      case isFalse hz =>
          intro d hd
          rcases List.mem_cons.mp hd with rfl | hd
          · omega
          · exact (h.tail d hd).2.2

/-- A sound buffer that has chains has one at `*last_with_datap`. -/
theorem Evbuffer.Sound.after_ne_nil {buf : Evbuffer} (h : buf.Sound) (hne : buf.chains ≠ []) :
    buf.after ≠ [] := by
  intro hnil
  have hbefore : buf.before ≠ [] := by
    intro hb
    rw [Evbuffer.chains, hb, hnil] at hne
    exact hne rfl
  obtain ⟨c, hc, -⟩ := h.leading hbefore
  rw [hnil] at hc
  cases hc

/-- Freeing chains that are not pinned leaves nothing dangling. -/
theorem freeAll_eq_self {buf : Evbuffer} {cs : List EvbufferChain}
    (h : ∀ c ∈ cs, c.pinned = false) : buf.freeAll cs = buf := by
  have hnil : cs.filter EvbufferChain.pinned = [] :=
    List.filter_eq_nil_iff.mpr fun c hc => by rw [h c hc]; decide
  rw [Evbuffer.freeAll, hnil, List.map_nil, List.append_nil]

/-- The end of `_evbuffer_expand_fast` in a ready buffer. -/
theorem replaceEmpty_eq {P : Platform} {malloc : Bool} {buf : Evbuffer} {m n : ℕ}
    {c : EvbufferChain} {cs : List EvbufferChain} (hafter : buf.after = c :: cs)
    (hready : Ready m (c :: cs)) (hn : 2 ≤ n) (hlt : c.spaceLen < m)
    (hunpinned : ∀ d ∈ cs, d.pinned = false) :
    ∃ r after' addr', buf.replaceEmpty P malloc m =
        some (r, { buf with after := after', nextAddr := addr' }) ∧
      Extended (c :: cs) buf.nextAddr after' addr' ∧
      (r = -1 ∨ (r = 0 ∧ after' ≠ [] ∧ Roomy m n (vecChains after'))) := by
  have hoff : c.off ≠ 0 := hready.head c rfl
  have hempty : (cs.all fun d => decide (d.off = 0)) = true ∧ c.spaceLen ≤ m := by
    refine ⟨List.all_eq_true.mpr fun d hd => ?_, Nat.le_of_lt hlt⟩
    exact decide_eq_true (hready.tail d hd).1
  rw [Evbuffer.replaceEmpty, hafter]
  dsimp only
  rw [if_neg hoff, if_pos hempty, freeAll_eq_self hunpinned]
  cases hnew : evbufferChainNew P malloc buf.nextAddr (m - c.spaceLen) with
  | none =>
      refine ⟨-1, [c], buf.nextAddr, rfl, ?_, Or.inl rfl⟩
      exact ⟨[c], cs, [], rfl, rfl, (fun h => absurd h (List.cons_ne_nil _ _)), Or.inl ⟨rfl, rfl⟩⟩
  | some tmp =>
      have htmp := isNew_of_evbufferChainNew hnew
      refine ⟨0, [c, tmp], buf.nextAddr + 1, rfl, ?_, Or.inr ⟨rfl, List.cons_ne_nil _ _, ?_⟩⟩
      · exact ⟨[c], cs, [tmp], rfl, rfl, (fun h => absurd h (List.cons_ne_nil _ _)),
          Or.inr ⟨tmp, _, rfl, htmp, by omega, rfl⟩⟩
      · have hle := htmp.le_spaceLen
        change Roomy m n (vecChains ([c] ++ [tmp]))
        rw [vecChains_append, vecChains]
        split
        case isTrue hz =>
            exact roomy_concat (List.forall_mem_nil _) (by simp; omega) (by simp; omega)
              (by simp; omega)
        case isFalse hz =>
            refine roomy_concat (fun d hd => ?_) (by simp; omega) (by simpa using hlt)
              (by simpa using hle)
            rw [List.mem_singleton.mp hd]
            omega

/-- **Making room**: `_evbuffer_expand_fast` on a ready buffer does not fail an assertion. It
changes only the chains behind the data; and when it returns 0 they are just right for the
read. -/
theorem expandFast_eq {P : Platform} {malloc : Bool} {buf : Evbuffer} {m n : ℕ}
    (h : buf.Sound) (hready : Ready m buf.after) (hn : 2 ≤ n)
    (hunpinned : ∀ c ∈ buf.after, c.pinned = false) :
    ∃ r after' addr', buf.expandFast P malloc m n =
        some (r, { buf with after := after', nextAddr := addr' }) ∧
      Extended buf.after buf.nextAddr after' addr' ∧
      (r = -1 ∨ (r = 0 ∧ after' ≠ [] ∧ Roomy m n (vecChains after'))) := by
  have hm : 0 < m := Nat.lt_of_le_of_lt (Nat.zero_le _) hready.tight
  rw [Evbuffer.expandFast, if_neg (by omega)]
  by_cases hne : buf.chains = []
  · obtain ⟨hbefore, hafter⟩ := List.append_eq_nil_iff.mp hne
    rw [if_pos hne, hafter]
    cases hnew : evbufferChainNew P malloc buf.nextAddr m with
    | none =>
        refine ⟨-1, [], buf.nextAddr, ?_, ?_, Or.inl rfl⟩
        · rw [← hafter]
        · exact ⟨[], [], [], rfl, rfl, fun _ => rfl, Or.inl ⟨rfl, rfl⟩⟩
    | some tmp =>
        have htmp := isNew_of_evbufferChainNew hnew
        refine ⟨0, [tmp], buf.nextAddr + 1, ?_, ?_, Or.inr ⟨rfl, List.cons_ne_nil _ _, ?_⟩⟩
        · dsimp only [Evbuffer.chainInsert]
          rw [if_pos hbefore, htmp.off_eq]
          rfl
        · exact ⟨[], [], [tmp], rfl, rfl, fun _ => rfl,
            Or.inr ⟨tmp, _, rfl, htmp, hm, rfl⟩⟩
        · have hle := htmp.le_spaceLen
          rw [vecChains, if_neg (by omega)]
          change Roomy m n ([] ++ [tmp])
          exact roomy_concat (List.forall_mem_nil _) (by simp; omega) (by simpa using hm)
            (by simpa using hle)
  · rw [if_neg hne]
    obtain ⟨c, cs, hafter⟩ := List.exists_cons_of_ne_nil (h.after_ne_nil hne)
    rw [hafter] at hready hunpinned ⊢
    obtain ⟨room, heq, hroom⟩ := expandLoop_eq hready hn
    rw [heq, Option.bind_some]
    dsimp only
    have hsame : { buf with after := c :: cs } = buf := by rw [← hafter]
    rw [hsame]
    rcases hroom with
      ⟨rfl, hroomy⟩ | ⟨avail, used, rfl, hused, hlt, havail, hshort⟩ | ⟨⟨a, rfl⟩, hlt⟩
    · refine ⟨0, c :: cs, buf.nextAddr, ?_, ?_, Or.inr ⟨rfl, List.cons_ne_nil _ _, hroomy⟩⟩
      · rw [← hafter]
      · exact ⟨c :: cs, [], [], by simp, by simp, (fun h => absurd h (List.cons_ne_nil _ _)),
          Or.inl ⟨rfl, rfl⟩⟩
    · dsimp only
      rw [if_pos hlt]
      cases hnew : evbufferChainNew P malloc buf.nextAddr (m - avail) with
      | none =>
          refine ⟨-1, c :: cs, buf.nextAddr, ?_, ?_, Or.inl rfl⟩
          · rw [← hafter]
          · exact ⟨c :: cs, [], [], by simp, by simp, (fun h => absurd h (List.cons_ne_nil _ _)),
              Or.inl ⟨rfl, rfl⟩⟩
      | some tmp =>
          have htmp := isNew_of_evbufferChainNew hnew
          refine ⟨0, c :: cs ++ [tmp], buf.nextAddr + 1, ?_, ?_,
            Or.inr ⟨rfl, List.cons_ne_nil _ _, ?_⟩⟩
          · rfl
          · exact ⟨c :: cs, [], [tmp], by simp, rfl, (fun h => absurd h (List.cons_ne_nil _ _)),
              Or.inr ⟨tmp, _, rfl, htmp, by omega, rfl⟩⟩
          · rw [vecChains_append]
            subst hused havail
            exact roomy_concat hready.vecChains_pos hlt hshort htmp.le_spaceLen
    · dsimp only
      rw [if_neg (Nat.lt_irrefl n)]
      exact replaceEmpty_eq hafter hready hn hlt fun d hd =>
        hunpinned d (List.mem_cons_of_mem c hd)

/-- The chains of an extended list were there before or are new. -/
theorem Extended.mem_or {after after' : List EvbufferChain} {addr addr' : ℕ}
    (h : Extended after addr after' addr') {c : EvbufferChain} (hc : c ∈ after') :
    c ∈ after ∨ ∃ m, c.IsNew addr m ∧ 0 < m ∧ addr' = addr + 1 := by
  obtain ⟨kept, gone, fresh, rfl, rfl, -, hfresh⟩ := h
  rcases List.mem_append.mp hc with hc | hc
  · exact Or.inl (List.mem_append_left gone hc)
  · rcases hfresh with ⟨rfl, -⟩ | ⟨tmp, m, rfl, htmp, hm, haddr⟩
    · cases hc
    · rw [List.mem_singleton.mp hc]
      exact Or.inr ⟨m, htmp, hm, haddr⟩

/-- What an extension adds and what it takes away has no data, and the first chain stays. -/
theorem Extended.cases {after after' : List EvbufferChain} {addr addr' : ℕ}
    (h : Extended after addr after' addr') (htrailing : ∀ c ∈ after.tail, c.off = 0) :
    ∃ kept gone fresh, after = kept ++ gone ∧ after' = kept ++ fresh ∧
      (kept = [] → after = []) ∧ (∀ c ∈ gone, c.off = 0) ∧ (∀ c ∈ fresh, c.off = 0) ∧
      (fresh.map EvbufferChain.addr).Nodup ∧ (∀ c ∈ fresh, c.addr = addr) ∧ addr ≤ addr' := by
  obtain ⟨kept, gone, fresh, rfl, rfl, hkept, hfresh⟩ := h
  refine ⟨kept, gone, fresh, rfl, rfl, fun h => by rw [h, hkept h]; rfl, fun c hc => ?_, ?_⟩
  · cases kept with
    | nil => rw [hkept rfl] at hc; cases hc
    | cons k kept => exact htrailing c (List.mem_append_right kept hc)
  · rcases hfresh with ⟨rfl, rfl⟩ | ⟨tmp, m, rfl, htmp, -, rfl⟩
    · exact ⟨(List.forall_mem_nil _), List.nodup_nil, List.forall_mem_nil _, Nat.le_refl _⟩
    · have hnodup : ([tmp].map EvbufferChain.addr).Nodup :=
        List.nodup_cons.mpr ⟨List.not_mem_nil, List.nodup_nil⟩
      refine ⟨fun c hc => ?_, hnodup, fun c hc => ?_, Nat.le_succ _⟩
      · rw [List.mem_singleton.mp hc, htmp.off_eq]
      · rw [List.mem_singleton.mp hc, htmp.addr_eq]

/-- Making room leaves a sound buffer. -/
theorem Extended.wf {buf : Evbuffer} {after' : List EvbufferChain} {addr' : ℕ} (h : buf.Wf)
    (hext : Extended buf.after buf.nextAddr after' addr') :
    { buf with after := after', nextAddr := addr' }.Wf := by
  have hmem : ∀ c ∈ buf.before ++ after', c ∈ buf.chains ∨
      ∃ m, c.IsNew buf.nextAddr m ∧ 0 < m ∧ addr' = buf.nextAddr + 1 := by
    intro c hc
    rcases List.mem_append.mp hc with hc | hc
    · exact Or.inl (List.mem_append_left buf.after hc)
    · exact (hext.mem_or hc).imp_left (List.mem_append_right buf.before)
  obtain ⟨kept, gone, fresh, hafter, rfl, hkept, hgone, hfresh, hnodup, haddr, hle⟩ :=
    hext.cases h.trailing
  refine ⟨⟨fun c hc => ?_, ?_, ?_, fun c hc => ?_, fun c hc => ?_, fun hne => ?_⟩,
    h.cleared, h.reports⟩
  · rcases hmem c hc with hc | ⟨m, hm, -⟩
    · exact h.fits c hc
    · rw [hm.misalign_eq, hm.off_eq]
      exact Nat.zero_le _
  · change buf.totalLen = bytesIn (buf.before ++ (kept ++ fresh))
    rw [h.total, Evbuffer.chains, hafter, bytesIn_append, bytesIn_append, bytesIn_append,
      bytesIn_append, bytesIn_eq_zero hgone, bytesIn_eq_zero hfresh]
  · have hold := h.nodup
    rw [Evbuffer.chains, hafter, ← List.append_assoc, List.map_append] at hold
    change ((buf.before ++ (kept ++ fresh)).map EvbufferChain.addr).Nodup
    rw [← List.append_assoc, List.map_append]
    refine List.nodup_append.mpr ⟨(List.nodup_append.mp hold).1, hnodup, ?_⟩
    intro a ha b hb
    obtain ⟨c, hc, rfl⟩ := List.mem_map.mp ha
    obtain ⟨d, hd, rfl⟩ := List.mem_map.mp hb
    have hlt : c.addr < buf.nextAddr := by
      refine h.fresh c ?_
      rw [Evbuffer.chains, hafter, ← List.append_assoc]
      exact List.mem_append_left gone hc
    rw [haddr d hd]
    exact Nat.ne_of_lt hlt
  · rcases hmem c hc with hc | ⟨m, hm, -, hnext⟩
    · exact Nat.lt_of_lt_of_le (h.fresh c hc) hle
    · rw [hm.addr_eq]
      change buf.nextAddr < addr'
      omega
  · change c ∈ (kept ++ fresh).tail at hc
    have htrailing := h.trailing
    rw [hafter] at htrailing
    cases kept with
    | nil => exact hfresh c (List.mem_of_mem_tail hc)
    | cons k kept =>
        rcases List.mem_append.mp hc with hc | hc
        · exact htrailing c (List.mem_append_left gone hc)
        · exact hfresh c hc
  · obtain ⟨c, hc, hoff⟩ := h.leading hne
    refine ⟨c, ?_, hoff⟩
    cases kept with
    | nil => rw [hkept rfl] at hc; cases hc
    | cons k kept =>
        rw [hafter] at hc
        exact hc

/-- Making room leaves the bytes. -/
theorem Extended.contents_eq {buf : Evbuffer} {after' : List EvbufferChain} {addr' : ℕ}
    (h : buf.Sound) (hext : Extended buf.after buf.nextAddr after' addr') :
    { buf with after := after', nextAddr := addr' }.contents = buf.contents := by
  obtain ⟨kept, gone, fresh, hafter, rfl, -, hgone, hfresh, -⟩ := hext.cases h.trailing
  change queue buf.mem (buf.before ++ (kept ++ fresh)) = queue buf.mem (buf.before ++ buf.after)
  rw [hafter, queue_append, queue_append, queue_append, queue_append, queue_eq_nil hgone,
    queue_eq_nil hfresh]

/-- Behind `*last_with_datap` an extended list has chains that have never had data. -/
theorem Extended.untouched {after after' : List EvbufferChain} {addr addr' m : ℕ}
    (h : Extended after addr after' addr') (hready : Ready m after) :
    ∀ c ∈ after'.tail, c.misalign = 0 := by
  intro c hc
  obtain ⟨kept, gone, fresh, rfl, rfl, -, hfresh⟩ := h
  have hnew : ∀ d ∈ fresh, d.misalign = 0 := by
    intro d hd
    rcases hfresh with ⟨rfl, -⟩ | ⟨tmp, m, rfl, htmp, -, -⟩
    · cases hd
    · rw [List.mem_singleton.mp hd, htmp.misalign_eq]
  cases kept with
  | nil => exact hnew c (List.mem_of_mem_tail hc)
  | cons k kept =>
      rcases List.mem_append.mp hc with hc | hc
      · exact (hready.tail c (List.mem_append_left gone hc)).2.1
      · exact hnew c hc

/-- **The vectors**: when the chains are just right, `_evbuffer_read_setup_vecs` makes one
vector for each chain from `*chainp` on. -/
theorem readSetupVecs_eq {buf : Evbuffer} {m n : ℕ} (hne : buf.after ≠ []) (hm : 0 < m)
    (hroomy : Roomy m n (vecChains buf.after)) :
    ∃ skip bs, buf.readSetupVecs m n true = some (skip, bs) ∧
      List.Forall₂ IsVec (vecChains buf.after) bs ∧ size bs = m ∧
      (if skip then buf.after.drop 1 else buf.after) = vecChains buf.after ∧
      buf.after = (if skip then buf.after.take 1 else []) ++ vecChains buf.after ∧
      (if skip then buf.after.take 1 else []).length ≤ 1 := by
  obtain ⟨bs, hbs, hvecs, hsize⟩ :=
    setupVecs_eq hroomy.pos hm hroomy.length_le hroomy.enough hroomy.tight
  obtain ⟨c, cs, hafter⟩ := List.exists_cons_of_ne_nil hne
  rw [Evbuffer.readSetupVecs, hafter]
  rw [hafter] at hbs hvecs
  by_cases hz : c.spaceLen = 0
  · rw [vecChains, if_pos hz] at hbs hvecs ⊢
    refine ⟨true, bs, ?_, hvecs, hsize, rfl, rfl, Nat.le_refl 1⟩
    dsimp only
    rw [if_pos hz, hbs]
    rfl
  · rw [vecChains, if_neg hz] at hbs hvecs ⊢
    refine ⟨false, bs, ?_, hvecs, hsize, rfl, rfl, Nat.zero_le 1⟩
    dsimp only
    rw [if_neg hz, hbs]
    rfl

/-- Flags have no part in being ready for a read. -/
theorem Ready.of_unmarked {m : ℕ} {after after' : List EvbufferChain} (h : Ready m after)
    (heq : after'.map EvbufferChain.unmarked = after.map EvbufferChain.unmarked) :
    Ready m after' := by
  have htail : after'.tail.map EvbufferChain.unmarked = after.tail.map EvbufferChain.unmarked := by
    rw [List.map_tail, List.map_tail, heq]
  refine ⟨fun c hc => ?_, fun c hc => ?_, ?_⟩
  · have hhead := congrArg List.head? heq
    rw [List.head?_map, List.head?_map, Option.mem_def.mp hc] at hhead
    obtain ⟨d, hd, hdc⟩ := Option.map_eq_some_iff.mp hhead.symm
    rw [← (EvbufferChain.eq_of_unmarked hdc).2.2.2]
    exact h.head d hd
  · obtain ⟨d, hd, hdc⟩ := exists_of_unmarked htail hc
    obtain ⟨-, hlen, hmis, hoff⟩ := EvbufferChain.eq_of_unmarked hdc
    have := h.tail d hd
    rw [EvbufferChain.spaceLen] at this ⊢
    rw [← hlen, ← hmis, ← hoff]
    exact this
  · have hspaces : spaces after'.dropLast = spaces after.dropLast := by
      have hdrop : after'.dropLast.map EvbufferChain.unmarked =
          after.dropLast.map EvbufferChain.unmarked := by
        rw [List.map_dropLast, List.map_dropLast, heq]
      exact spaces_unmarked hdrop
    rw [hspaces]
    exact h.tight

end IocpEcho
