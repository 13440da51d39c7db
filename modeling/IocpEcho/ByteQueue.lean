import IocpEcho.EvbufferOverlapped
import Mathlib.Data.List.Nodup

/-!
# The Byte Queue of an Evbuffer

What the chains of an evbuffer stand for is the sequence of their data, one chain after the
other: a queue of bytes. This module says when a list of chains is sound (`Evbuffer.Wf`) and
what copying out and draining do to the queue.

## Main results

* `evbufferCopyout_eq`: the bytes copied out are the first of the queue.
* `evbufferDrain_eq`, `evbufferRemove_eq`: draining drops the first bytes of the queue and keeps
  the chains sound.
-/

namespace IocpEcho

open Regions

/-! ### Sizes -/

/-- The bytes in a list of chains, one chain after the other. -/
def queue (mem : ℕ → ℕ → Byte) (cs : List EvbufferChain) : List Byte :=
  slices mem (cs.map EvbufferChain.data)

/-- The number of bytes in a list of chains. -/
def bytesIn : List EvbufferChain → ℕ
  | [] => 0
  | c :: cs => c.off + bytesIn cs

@[simp] theorem queue_nil (mem : ℕ → ℕ → Byte) : queue mem [] = [] := rfl

@[simp] theorem queue_cons (mem : ℕ → ℕ → Byte) (c : EvbufferChain)
    (cs : List EvbufferChain) : queue mem (c :: cs) = c.data.cells mem ++ queue mem cs := by
  rw [queue, queue, List.map_cons, slices_cons]

@[simp] theorem queue_append (mem : ℕ → ℕ → Byte) (cs ds : List EvbufferChain) :
    queue mem (cs ++ ds) = queue mem cs ++ queue mem ds := by
  rw [queue, queue, queue, List.map_append, slices_append]

@[simp] theorem bytesIn_nil : bytesIn [] = 0 := rfl

@[simp] theorem bytesIn_cons (c : EvbufferChain) (cs : List EvbufferChain) :
    bytesIn (c :: cs) = c.off + bytesIn cs := rfl

@[simp] theorem bytesIn_append (cs ds : List EvbufferChain) :
    bytesIn (cs ++ ds) = bytesIn cs + bytesIn ds := by
  induction cs with
  | nil => exact (Nat.zero_add _).symm
  | cons c cs ih => rw [List.cons_append, bytesIn_cons, bytesIn_cons, ih, Nat.add_assoc]

theorem length_cells_data (mem : ℕ → ℕ → Byte) (c : EvbufferChain) :
    (c.data.cells mem).length = c.off :=
  length_cells mem c.data

@[simp] theorem length_queue (mem : ℕ → ℕ → Byte) (cs : List EvbufferChain) :
    (queue mem cs).length = bytesIn cs := by
  induction cs with
  | nil => rfl
  | cons c cs ih =>
      rw [queue_cons, List.length_append, length_cells_data, ih, bytesIn_cons]

/-- The free space of a list of chains. -/
def spaces : List EvbufferChain → ℕ
  | [] => 0
  | c :: cs => c.spaceLen + spaces cs

@[simp] theorem spaces_nil : spaces [] = 0 := rfl

@[simp] theorem spaces_cons (c : EvbufferChain) (cs : List EvbufferChain) :
    spaces (c :: cs) = c.spaceLen + spaces cs := rfl

@[simp] theorem spaces_append (cs ds : List EvbufferChain) :
    spaces (cs ++ ds) = spaces cs + spaces ds := by
  induction cs with
  | nil => exact (Nat.zero_add _).symm
  | cons c cs ih => rw [List.cons_append, spaces_cons, spaces_cons, ih, Nat.add_assoc]

/-- Chains without data hold no bytes. -/
theorem bytesIn_eq_zero {cs : List EvbufferChain} (h : ∀ c ∈ cs, c.off = 0) :
    bytesIn cs = 0 := by
  induction cs with
  | nil => rfl
  | cons c cs ih =>
      rw [bytesIn_cons, h c List.mem_cons_self, ih fun d hd => h d (List.mem_cons_of_mem c hd)]

/-- Chains without data contribute nothing to the queue. -/
theorem queue_eq_nil {mem : ℕ → ℕ → Byte} {cs : List EvbufferChain}
    (h : ∀ c ∈ cs, c.off = 0) : queue mem cs = [] := by
  rw [← List.length_eq_zero_iff, length_queue, bytesIn_eq_zero h]

/-- Every byte of a list of chains is in one of them. -/
theorem exists_chain_of_lt {cs : List EvbufferChain} {n : ℕ} (h : n < bytesIn cs) :
    ∃ us p rest, cs = us ++ p :: rest ∧ bytesIn us ≤ n ∧ n < bytesIn us + p.off := by
  induction cs generalizing n with
  | nil => exact absurd h (Nat.not_lt_zero _)
  | cons c cs ih =>
      rw [bytesIn_cons] at h
      by_cases hlt : n < c.off
      · exact ⟨[], c, cs, rfl, Nat.zero_le _, by simpa using hlt⟩
      · obtain ⟨us, p, rest, rfl, hle, hlt'⟩ := ih (n := n - c.off) (by omega)
        refine ⟨c :: us, p, rest, rfl, ?_, ?_⟩ <;> rw [bytesIn_cons] <;> omega

/-! ### Chains that lose or gain bytes -/

namespace EvbufferChain

theorem spaceLen_advance (c : EvbufferChain) {n : ℕ} (h : n ≤ c.off) :
    (c.advance n).spaceLen = c.spaceLen := by
  simp only [spaceLen, advance]
  omega

theorem spaceLen_extend (c : EvbufferChain) (n : ℕ) :
    (c.extend n).spaceLen = c.spaceLen - n := by
  simp only [spaceLen, extend]
  omega

/-- A chain that loses bytes keeps the others. -/
theorem cells_advance (mem : ℕ → ℕ → Byte) (c : EvbufferChain) {n : ℕ} (h : n ≤ c.off) :
    (c.advance n).data.cells mem = (c.data.cells mem).drop n :=
  (drop_slice _ _ h).symm

/-- A chain that gains bytes has those that stand behind its data. -/
theorem cells_extend (mem : ℕ → ℕ → Byte) (c : EvbufferChain) (n : ℕ) :
    (c.extend n).data.cells mem =
      c.data.cells mem ++ slice (mem c.addr) (c.misalign + c.off) n :=
  slice_add _ _ _ _

end EvbufferChain

/-! ### New chains -/

/-- Doubling reaches the size asked for. -/
theorem le_doubleTo {size rounds toAlloc : ℕ} (h : size ≤ toAlloc + rounds)
    (hpos : 0 < toAlloc) : size ≤ doubleTo size rounds toAlloc := by
  induction rounds generalizing toAlloc with
  | zero => exact h
  | succ rounds ih =>
      rw [doubleTo]
      split
      · exact ih (by omega) (by omega)
      · omega

/-- A new chain is empty, unpinned and large enough. -/
structure EvbufferChain.IsNew (c : EvbufferChain) (addr size : ℕ) : Prop where
  addr_eq : c.addr = addr
  misalign_eq : c.misalign = 0
  off_eq : c.off = 0
  unpinned : c.memPinnedR = false ∧ c.memPinnedW = false
  size_le : size ≤ c.bufferLen

theorem isNew_of_evbufferChainNew {P : Platform} {malloc : Bool} {addr size : ℕ}
    {c : EvbufferChain} (h : evbufferChainNew P malloc addr size = some c) :
    c.IsNew addr size := by
  rw [evbufferChainNew] at h
  split at h
  case isTrue => cases h
  case isFalse =>
      cases malloc with
      | false => cases h
      | true =>
          obtain rfl := Option.some.inj h
          refine ⟨rfl, rfl, rfl, ⟨rfl, rfl⟩, ?_⟩
          have hpos := P.minBufferSize_pos
          have hdouble : size + P.chainSize ≤
              doubleTo (size + P.chainSize) (size + P.chainSize) P.minBufferSize :=
            le_doubleTo (by omega) hpos
          dsimp only
          split <;> omega

/-- All of a new chain is free space. -/
theorem EvbufferChain.IsNew.le_spaceLen {c : EvbufferChain} {addr size : ℕ}
    (h : c.IsNew addr size) : size ≤ c.spaceLen := by
  have := h.size_le
  rw [EvbufferChain.spaceLen, h.misalign_eq, h.off_eq]
  omega

/-! ### What the callbacks are told -/

/-- A sequence of reports leads from one size of the buffer to another: each one starts from
the size at which the one before it ended. -/
def Tracks : ℕ → List EvbufferCbInfo → ℕ → Prop
  | size, [], last => size = last
  | size, info :: infos, last =>
      info.origSize = size ∧ info.nDeleted ≤ size + info.nAdded ∧
        Tracks (size + info.nAdded - info.nDeleted) infos last

/-- One report more. -/
theorem Tracks.concat {size last : ℕ} {infos : List EvbufferCbInfo} (info : EvbufferCbInfo)
    (h : Tracks size infos last) (horig : info.origSize = last)
    (hle : info.nDeleted ≤ last + info.nAdded) :
    Tracks size (infos ++ [info]) (last + info.nAdded - info.nDeleted) := by
  induction infos generalizing size with
  | nil =>
      obtain rfl : size = last := h
      exact ⟨horig, hle, rfl⟩
  | cons i infos ih => exact ⟨h.1, h.2.1, ih h.2.2⟩

/-- The report of `evbuffer_invoke_callbacks` starts from the size at the last report, when
the counters hold what has changed since then. -/
theorem Tracks.invokeCallbacks {buf : Evbuffer} {last : ℕ} (h : Tracks 0 buf.infos last)
    (heq : buf.totalLen + buf.nDelForCb = last + buf.nAddForCb) :
    Tracks 0 buf.invokeCallbacks.infos buf.totalLen := by
  rw [Evbuffer.invokeCallbacks]
  split
  case isTrue hzero =>
      obtain rfl : buf.totalLen = last := by omega
      exact h
  case isFalse _ =>
      have hsize : last + buf.nAddForCb - buf.nDelForCb = buf.totalLen := by omega
      have horig : buf.totalLen + buf.nDelForCb - buf.nAddForCb = last := by omega
      have := Tracks.concat
        ⟨buf.totalLen + buf.nDelForCb - buf.nAddForCb, buf.nAddForCb, buf.nDelForCb⟩
        h horig (by simp only; omega)
      rwa [hsize] at this

/-- What `evbuffer_invoke_callbacks` changes in the buffer. -/
theorem invokeCallbacks_eq (buf : Evbuffer) : buf.invokeCallbacks =
    { buf with nAddForCb := 0, nDelForCb := 0, infos := buf.invokeCallbacks.infos } := by
  rw [Evbuffer.invokeCallbacks]
  split
  case isTrue hzero =>
      obtain ⟨hadd, hdel⟩ := hzero
      cases buf
      subst hadd hdel
      rfl
  case isFalse => rfl

/-! ### Sound lists of chains -/

/-- The chains of an evbuffer are sound. The data of a chain lies within its block, no two
chains share a block, and `total_len` counts the bytes. Behind `*last_with_datap` there is
no data, and `*last_with_datap` has data unless it is the first chain or there is none. -/
structure Evbuffer.Sound (buf : Evbuffer) : Prop where
  fits : ∀ c ∈ buf.chains, c.misalign + c.off ≤ c.bufferLen
  total : buf.totalLen = bytesIn buf.chains
  nodup : (buf.chains.map EvbufferChain.addr).Nodup
  fresh : ∀ c ∈ buf.chains, c.addr < buf.nextAddr
  trailing : ∀ c ∈ buf.after.tail, c.off = 0
  leading : buf.before ≠ [] → ∃ c ∈ buf.after.head?, c.off ≠ 0

/-- A sound evbuffer whose callbacks have been told of every change. -/
structure Evbuffer.Wf (buf : Evbuffer) : Prop extends buf.Sound where
  cleared : buf.nAddForCb = 0 ∧ buf.nDelForCb = 0
  reports : Tracks 0 buf.infos buf.totalLen

/-- A new evbuffer is sound. -/
theorem wf_new (mem : ℕ → ℕ → Byte) : (EvbufferOverlapped.new mem).buffer.Wf :=
  ⟨⟨List.forall_mem_nil _, rfl, List.nodup_nil, List.forall_mem_nil _, List.forall_mem_nil _,
    fun h => absurd rfl h⟩, ⟨rfl, rfl⟩, rfl⟩

/-- After its callbacks have run, a sound evbuffer owes them nothing. -/
theorem Evbuffer.Sound.invokeCallbacks {buf : Evbuffer} (h : buf.Sound) {last : ℕ}
    (hreports : Tracks 0 buf.infos last)
    (heq : buf.totalLen + buf.nDelForCb = last + buf.nAddForCb) : buf.invokeCallbacks.Wf := by
  have hinfos := hreports.invokeCallbacks heq
  rw [invokeCallbacks_eq]
  exact ⟨⟨h.fits, h.total, h.nodup, h.fresh, h.trailing, h.leading⟩, ⟨rfl, rfl⟩, hinfos⟩

/-- `total_len` is the length of the queue. -/
theorem Evbuffer.Wf.length_contents {buf : Evbuffer} (h : buf.Wf) :
    buf.contents.length = buf.totalLen := by
  rw [h.total]
  exact length_queue _ _

/-- The queue is empty exactly when `total_len` is zero. -/
theorem Evbuffer.Wf.contents_eq_nil_iff {buf : Evbuffer} (h : buf.Wf) :
    buf.contents = [] ↔ buf.totalLen = 0 := by
  rw [← h.length_contents, List.length_eq_zero_iff]

/-- Bytes written into free space are not part of the queue. -/
theorem contents_write {buf : Evbuffer} (h : buf.Sound) {c : EvbufferChain} (hc : c ∈ buf.chains)
    {pos : ℕ} (hpos : c.misalign + c.off ≤ pos) (data : List Byte) :
    Evbuffer.contents { buf with mem := write buf.mem c.addr pos data } = buf.contents := by
  refine slices_write_of_avoids fun r hr hblock => ?_
  obtain ⟨d, hd, rfl⟩ := List.mem_map.mp hr
  obtain rfl : d = c := List.inj_on_of_nodup_map h.nodup hd hc hblock
  exact Or.inl hpos

/-! ### Copying out -/

/-- The loop of `evbuffer_copyout` copies the first bytes of the chains. -/
theorem copyoutLoop_eq {mem : ℕ → ℕ → Byte} {cs : List EvbufferChain} {n : ℕ}
    (h : n ≤ bytesIn cs) : Evbuffer.copyoutLoop mem cs n = some ((queue mem cs).take n) := by
  induction cs generalizing n with
  | nil =>
      obtain rfl : n = 0 := Nat.le_zero.mp h
      rfl
  | cons c cs ih =>
      rw [bytesIn_cons] at h
      rw [Evbuffer.copyoutLoop, queue_cons]
      by_cases hzero : n = 0
      · rw [if_pos hzero, hzero, List.take_zero]
      · rw [if_neg hzero]
        by_cases hle : c.off ≤ n
        · rw [if_pos hle, ih (by omega), Option.map_some, List.take_append,
            length_cells_data,
            List.take_of_length_le ((length_cells_data mem c).trans_le hle)]
        · rw [if_neg hle, List.take_append_of_le_length (by rw [length_cells_data]; omega)]
          exact congrArg some (take_slice _ _ (Nat.le_of_not_le hle)).symm

/-- **Copying out**: `evbuffer_copyout` reads the first bytes of the queue. -/
theorem evbufferCopyout_eq {buf : Evbuffer} (h : buf.Wf) (hfreeze : buf.freezeStart = false)
    (n : ℕ) : buf.evbufferCopyout n =
      some (((min n buf.totalLen : ℕ) : ℤ), buf.contents.take n) := by
  have htake : buf.contents.take (min n buf.totalLen) = buf.contents.take n := by
    rw [← h.length_contents, List.take_eq_take_iff]
    omega
  rw [Evbuffer.evbufferCopyout, ← htake]
  split
  case isTrue hzero => rw [hzero]; rfl
  case isFalse hpos =>
      have hle : min n buf.totalLen ≤ bytesIn buf.chains := by
        rw [← h.total]
        omega
      rw [hfreeze, if_neg (by decide), copyoutLoop_eq hle]
      rfl

/-! ### Where draining stops -/

/-- `evbuffer_drain` stops in a chain that keeps some bytes, or that a read has pinned. -/
def StopsAt (p : EvbufferChain) (remaining : ℕ) : Prop :=
  remaining < p.off ∨ (p.memPinnedR = true ∧ remaining = p.off)

/-- The loop of `evbuffer_drain` stops behind `*last_with_datap`, or there. -/
theorem drainAfter_eq {us rest : List EvbufferChain} {p : EvbufferChain} {remaining : ℕ}
    (hus : ∀ u ∈ us, u.memPinnedR = false) (hle : bytesIn us ≤ remaining)
    (hstop : StopsAt p (remaining - bytesIn us)) :
    Evbuffer.drainAfter (us ++ p :: rest) remaining =
      some (p.advance (remaining - bytesIn us) :: rest, us) := by
  induction us generalizing remaining with
  | nil =>
      rw [List.nil_append, Evbuffer.drainAfter]
      change StopsAt p remaining at hstop
      change _ = some (p.advance remaining :: rest, [])
      rcases hstop with hlt | ⟨hpin, heq⟩
      · rw [if_pos hlt]
      · rw [if_neg (by omega), if_pos hpin, if_pos heq, heq]
  | cons u us ih =>
      have hsize : bytesIn (u :: us) = u.off + bytesIn us := bytesIn_cons _ _
      have hrest : remaining - bytesIn (u :: us) = remaining - u.off - bytesIn us := by omega
      rw [hrest] at hstop ⊢
      rw [List.cons_append, Evbuffer.drainAfter, if_neg (by omega),
        hus u List.mem_cons_self, if_neg (by decide),
        ih (fun v hv => hus v (List.mem_cons_of_mem u hv)) (by omega) hstop]
      rfl

/-- The loop of `evbuffer_drain` stops from `*last_with_datap` on: that pointer is
`buf->first` again. -/
theorem drainLoop_of_after {before us rest : List EvbufferChain} {p : EvbufferChain}
    {remaining : ℕ} (hus : ∀ u ∈ before ++ us, u.memPinnedR = false)
    (hle : bytesIn (before ++ us) ≤ remaining)
    (hstop : StopsAt p (remaining - bytesIn (before ++ us))) :
    Evbuffer.drainLoop before (us ++ p :: rest) remaining =
      some ([], p.advance (remaining - bytesIn (before ++ us)) :: rest, before ++ us) := by
  induction before generalizing remaining with
  | nil =>
      rw [List.nil_append] at *
      rw [Evbuffer.drainLoop, drainAfter_eq hus hle hstop]
      rfl
  | cons u before ih =>
      have hsize : bytesIn (u :: before ++ us) = u.off + bytesIn (before ++ us) :=
        bytesIn_cons _ _
      have hrest : remaining - bytesIn (u :: before ++ us) =
          remaining - u.off - bytesIn (before ++ us) := by omega
      rw [hrest] at hstop ⊢
      rw [Evbuffer.drainLoop, if_neg (by omega), hus u List.mem_cons_self,
        if_neg (by decide),
        ih (fun v hv => hus v (List.mem_cons_of_mem u hv)) (by omega) hstop]
      rfl

/-- The loop of `evbuffer_drain` stops in front of `*last_with_datap`. -/
theorem drainLoop_of_before {us rest after : List EvbufferChain} {p : EvbufferChain}
    {remaining : ℕ} (hus : ∀ u ∈ us, u.memPinnedR = false) (hle : bytesIn us ≤ remaining)
    (hlt : remaining - bytesIn us < p.off) :
    Evbuffer.drainLoop (us ++ p :: rest) after remaining =
      some (p.advance (remaining - bytesIn us) :: rest, after, us) := by
  induction us generalizing remaining with
  | nil =>
      rw [List.nil_append, Evbuffer.drainLoop]
      exact if_pos hlt
  | cons u us ih =>
      have hsize : bytesIn (u :: us) = u.off + bytesIn us := bytesIn_cons _ _
      have hrest : remaining - bytesIn (u :: us) = remaining - u.off - bytesIn us := by omega
      rw [hrest] at hlt ⊢
      rw [List.cons_append, Evbuffer.drainLoop, if_neg (by omega),
        hus u List.mem_cons_self, if_neg (by decide),
        ih (fun v hv => hus v (List.mem_cons_of_mem u hv)) (by omega) hlt]
      rfl

/-- What is left after `n` bytes are drained: the chains freed, and the two parts of the
list. -/
inductive Drains (before after : List EvbufferChain) :
    ℕ → List EvbufferChain → List EvbufferChain → List EvbufferChain → Prop
  | inBefore {us rest : List EvbufferChain} {p : EvbufferChain} {k : ℕ} :
      before = us ++ p :: rest → k < p.off →
      Drains before after (bytesIn us + k) us (p.advance k :: rest) after
  | inAfter {vs cs : List EvbufferChain} {k : ℕ} :
      after = vs ++ cs → (∀ p ∈ cs.head?, StopsAt p k) → (cs = [] → k = 0) →
      Drains before after (bytesIn (before ++ vs) + k) (before ++ vs) []
        (cs.modifyHead fun p => p.advance k)

/-- Draining removes the first bytes of the queue. -/
theorem Drains.queue_eq {before after us b a : List EvbufferChain} {n : ℕ}
    (h : Drains before after n us b a) (mem : ℕ → ℕ → Byte) :
    queue mem (b ++ a) = (queue mem (before ++ after)).drop n := by
  cases h with
  | @inBefore us rest p k hbefore hlt =>
      have hlen : (queue mem us).length = bytesIn us := length_queue _ _
      rw [hbefore, List.append_assoc, queue_append mem us, ← List.drop_drop,
        List.drop_left' hlen, List.cons_append, List.cons_append, queue_cons, queue_cons,
        p.cells_advance mem (Nat.le_of_lt hlt),
        List.drop_append_of_le_length (by rw [length_cells_data]; omega)]
  | @inAfter vs cs k hafter hstop hnil =>
      have hlen : (queue mem (before ++ vs)).length = bytesIn (before ++ vs) :=
        length_queue _ _
      rw [hafter, ← List.append_assoc, queue_append mem (before ++ vs), ← List.drop_drop,
        List.drop_left' hlen]
      cases cs with
      | nil => rw [hnil rfl]; rfl
      | cons p rest =>
          have hle : k ≤ p.off := by
            rcases hstop p rfl with hlt | ⟨-, heq⟩ <;> omega
          rw [List.nil_append, List.modifyHead_cons, queue_cons, queue_cons,
            p.cells_advance mem hle,
            List.drop_append_of_le_length (by rw [length_cells_data]; omega)]

/-- The chains left are those that were not freed, in their order. -/
theorem Drains.map_addr {before after us b a : List EvbufferChain} {n : ℕ}
    (h : Drains before after n us b a) :
    (before ++ after).map EvbufferChain.addr =
      us.map EvbufferChain.addr ++ (b ++ a).map EvbufferChain.addr := by
  cases h with
  | @inBefore us rest p k hbefore _ => simp [hbefore, EvbufferChain.advance]
  | @inAfter vs cs k hafter _ _ =>
      rw [hafter]
      cases cs <;> simp [EvbufferChain.advance]

/-- Every chain left was there before, with at most its data moved. -/
theorem Drains.mem_chains {before after us b a : List EvbufferChain} {n : ℕ}
    (h : Drains before after n us b a) {c : EvbufferChain} (hc : c ∈ b ++ a) :
    ∃ p ∈ before ++ after, ∃ k, k ≤ p.off ∧ c = p.advance k := by
  have hself : ∀ d : EvbufferChain, d = d.advance 0 := fun _ => rfl
  cases h with
  | @inBefore us rest p k hbefore hlt =>
      rcases List.mem_append.mp hc with hc | hc
      · rcases List.mem_cons.mp hc with rfl | hc
        · exact ⟨p, by simp [hbefore], k, Nat.le_of_lt hlt, rfl⟩
        · exact ⟨c, by simp [hbefore, hc], 0, Nat.zero_le _, hself c⟩
      · exact ⟨c, by simp [hc], 0, Nat.zero_le _, hself c⟩
  | @inAfter vs cs k hafter hstop _ =>
      cases cs with
      | nil => cases hc
      | cons p rest =>
          rcases List.mem_cons.mp hc with rfl | hc
          · refine ⟨p, by simp [hafter], k, ?_, rfl⟩
            rcases hstop p rfl with hlt | ⟨-, heq⟩ <;> omega
          · exact ⟨c, by simp [hafter, hc], 0, Nat.zero_le _, hself c⟩

/-- The chains freed were in the list. -/
theorem Drains.freed_subset {before after us b a : List EvbufferChain} {n : ℕ}
    (h : Drains before after n us b a) : us ⊆ before ++ after := by
  intro u hu
  cases h with
  | inBefore hbefore _ => simp [hbefore, hu]
  | @inAfter vs cs k hafter _ _ =>
      rw [hafter, ← List.append_assoc]
      exact List.mem_append_left cs hu

/-- The buffer after `n` bytes have been drained and its callbacks have run. -/
def Evbuffer.drained (buf : Evbuffer) (n : ℕ) (us b a : List EvbufferChain) : Evbuffer :=
  { buf.freeAll us with
    before := b
    after := a
    totalLen := buf.totalLen - n
    nDelForCb := buf.nDelForCb + n }.invokeCallbacks

/-- **Draining keeps the chains sound.** -/
theorem Evbuffer.Wf.drained {buf : Evbuffer} (h : buf.Wf) {n : ℕ}
    {us b a : List EvbufferChain} (hdrains : Drains buf.before buf.after n us b a)
    (hn : n ≤ buf.totalLen) : (buf.drained n us b a).Wf := by
  obtain ⟨hadd, hdel⟩ := h.cleared
  have hlast : buf.totalLen - n + (buf.nDelForCb + n) = buf.totalLen + buf.nAddForCb := by omega
  refine Evbuffer.Sound.invokeCallbacks ?_ h.reports hlast
  refine ⟨fun c hc => ?_, ?_, ?_, fun c hc => ?_, ?_, ?_⟩
  · obtain ⟨p, hp, k, hk, rfl⟩ := hdrains.mem_chains hc
    have := h.fits p hp
    simp only [EvbufferChain.advance]
    omega
  · have hqueue := congrArg List.length (hdrains.queue_eq buf.mem)
    rw [length_queue, List.length_drop, length_queue] at hqueue
    have := h.total
    change buf.totalLen - n = bytesIn (b ++ a)
    rw [hqueue, this]
    rfl
  · have hnodup : ((buf.before ++ buf.after).map EvbufferChain.addr).Nodup := h.nodup
    rw [hdrains.map_addr] at hnodup
    exact (List.nodup_append.mp hnodup).2.1
  · obtain ⟨p, hp, k, -, rfl⟩ := hdrains.mem_chains hc
    exact h.fresh p hp
  · intro c hc
    cases hdrains with
    | inBefore _ _ => exact h.trailing c hc
    | @inAfter vs cs k hafter _ _ =>
        refine h.trailing c ?_
        rw [hafter]
        cases cs with
        | nil => cases hc
        | cons p rest =>
            cases vs with
            | nil => exact hc
            | cons v vs => exact List.mem_append_right vs (List.mem_cons_of_mem p hc)
  · intro hb
    cases hdrains with
    | inBefore hbefore _ =>
        refine h.leading fun hnil => ?_
        rw [hnil] at hbefore
        simp at hbefore
    | inAfter _ _ _ => exact absurd rfl hb

/-- A chain pinned for reading has no data behind it. -/
def PinsTrail (cs : List EvbufferChain) : Prop :=
  cs.Pairwise fun c d => c.memPinnedR = true → d.off = 0

/-- Behind a chain pinned for reading there is no data, when the pinned chains come last and
all but the first of them are empty. -/
theorem pinsTrail_append {us t : List EvbufferChain} (hus : ∀ u ∈ us, u.memPinnedR = false)
    (htail : ∀ c ∈ t.tail, c.off = 0) : PinsTrail (us ++ t) := by
  refine List.pairwise_append.mpr ⟨?_, ?_, fun u hu c _ hpin => ?_⟩
  · refine List.pairwise_of_forall_mem_list fun u hu c _ hpin => ?_
    rw [hus u hu] at hpin
    cases hpin
  · cases t with
    | nil => exact List.Pairwise.nil
    | cons p rest =>
        refine List.pairwise_cons.mpr ⟨fun c hc _ => htail c hc, ?_⟩
        exact List.pairwise_of_forall_mem_list fun _ _ c hc _ => htail c hc
  · rw [hus u hu] at hpin
    cases hpin

/-- In front of a chain with data no chain is pinned for reading. -/
theorem PinsTrail.unpinned {us rest : List EvbufferChain} {p : EvbufferChain}
    (h : PinsTrail (us ++ p :: rest)) (hp : p.off ≠ 0) :
    ∀ u ∈ us, u.memPinnedR = false := by
  intro u hu
  cases hpin : u.memPinnedR with
  | false => rfl
  | true =>
      have := (List.pairwise_append.mp h).2.2 u hu p List.mem_cons_self hpin
      exact absurd this hp

/-- The first chain pinned for reading, when the last one is. -/
theorem exists_first_pinned {buf : Evbuffer} (h : buf.hasPinnedR = true) :
    ∃ us p rest, buf.chains = us ++ p :: rest ∧ (∀ u ∈ us, u.memPinnedR = false) ∧
      p.memPinnedR = true := by
  have hex : ∃ c ∈ buf.chains, c.memPinnedR = true := by
    rw [Evbuffer.hasPinnedR] at h
    split at h
    case h_1 => cases h
    case h_2 c hc => exact ⟨c, List.mem_of_getLast? hc, h⟩
  obtain ⟨c, hc, hpin⟩ := hex
  generalize buf.chains = cs at hc
  induction cs with
  | nil => cases hc
  | cons d cs ih =>
      cases hd : d.memPinnedR with
      | true => exact ⟨[], d, cs, rfl, List.forall_mem_nil _, hd⟩
      | false =>
          rcases List.mem_cons.mp hc with rfl | hc
          · rw [hpin] at hd
            cases hd
          · obtain ⟨us, p, rest, rfl, hus, hp⟩ := ih hc
            refine ⟨d :: us, p, rest, rfl, fun u hu => ?_, hp⟩
            rcases List.mem_cons.mp hu with rfl | hu
            · exact hd
            · exact hus u hu

/-- The chain in which `evbuffer_drain` stops, unless it drops all chains at once. -/
theorem exists_stop {buf : Evbuffer} (h : buf.Sound) (hpins : PinsTrail buf.chains) {n : ℕ}
    (hn : n < buf.totalLen ∨ (n = buf.totalLen ∧ buf.hasPinnedR = true)) :
    ∃ us p rest, buf.chains = us ++ p :: rest ∧ (∀ u ∈ us, u.memPinnedR = false) ∧
      bytesIn us ≤ n ∧ StopsAt p (n - bytesIn us) := by
  rw [h.total] at hn
  rcases hn with hlt | ⟨heq, hpinned⟩
  · obtain ⟨us, p, rest, hsplit, hle, hlt'⟩ := exists_chain_of_lt hlt
    refine ⟨us, p, rest, hsplit, ?_, hle, Or.inl (by omega)⟩
    exact PinsTrail.unpinned (hsplit ▸ hpins) (by omega)
  · obtain ⟨us, p, rest, hsplit, hus, hp⟩ := exists_first_pinned hpinned
    have hrest : bytesIn rest = 0 := by
      rw [hsplit] at hpins
      have hpair := (List.pairwise_append.mp hpins).2.1
      exact bytesIn_eq_zero fun c hc => (List.pairwise_cons.mp hpair).1 c hc hp
    rw [hsplit, bytesIn_append, bytesIn_cons, hrest] at heq
    exact ⟨us, p, rest, hsplit, hus, by omega, Or.inr ⟨hp, by omega⟩⟩

/-- A place in a list that is cut in two is in the second part or in the first. -/
theorem split_of_append {before after us rest : List EvbufferChain} {p : EvbufferChain}
    (h : before ++ after = us ++ p :: rest) :
    (∃ vs, us = before ++ vs ∧ after = vs ++ p :: rest) ∨
    (∃ ps, before = us ++ p :: ps ∧ rest = ps ++ after) := by
  rcases List.append_eq_append_iff.mp h with ⟨vs, hus, hafter⟩ | ⟨ps, hbefore, hps⟩
  · exact Or.inl ⟨vs, hus, hafter⟩
  · cases ps with
    | nil => exact Or.inl ⟨[], by simpa using hbefore.symm, hps.symm⟩
    | cons q ps =>
        obtain ⟨rfl, rfl⟩ := List.cons.inj hps
        exact Or.inr ⟨ps, hbefore, rfl⟩

/-- The loop of `evbuffer_drain` ends where there is a place to stop. -/
theorem exists_drains {before after us rest : List EvbufferChain} {p : EvbufferChain} {n : ℕ}
    (hsplit : before ++ after = us ++ p :: rest) (hus : ∀ u ∈ us, u.memPinnedR = false)
    (hle : bytesIn us ≤ n) (hstop : StopsAt p (n - bytesIn us))
    (hbefore : p ∈ before → p.memPinnedR = false) :
    ∃ b a, Drains before after n us b a ∧
      Evbuffer.drainLoop before after n = some (b, a, us) := by
  obtain ⟨k, rfl⟩ := Nat.exists_eq_add_of_le hle
  have hk : bytesIn us + k - bytesIn us = k := by omega
  rcases split_of_append hsplit with ⟨vs, rfl, rfl⟩ | ⟨ps, rfl, rfl⟩
  · have hloop : Evbuffer.drainLoop before (vs ++ p :: rest) _ = _ :=
      drainLoop_of_after hus hle hstop
    rw [hk] at hstop hloop
    refine ⟨_, _, Drains.inAfter rfl (fun q hq => ?_)
      (fun hnil => absurd hnil (List.cons_ne_nil _ _)), hloop⟩
    obtain rfl : p = q := Option.some.inj hq
    exact hstop
  · have hlt : bytesIn us + k - bytesIn us < p.off := by
      rcases hstop with hlt | ⟨hpin, -⟩
      · exact hlt
      · rw [hbefore (by simp)] at hpin
        cases hpin
    have hloop : Evbuffer.drainLoop (us ++ p :: ps) after _ = _ :=
      drainLoop_of_before hus hle hlt
    rw [hk] at hlt hloop
    exact ⟨_, _, Drains.inBefore rfl hlt, hloop⟩

/-- A buffer from which `n` bytes have been drained. No chain that a read has pinned is
freed as long as the last chain is pinned. -/
def Evbuffer.Drained (buf : Evbuffer) (n : ℕ) (buf' : Evbuffer) : Prop :=
  (n = 0 ∧ buf' = buf) ∨
  (n ≤ buf.totalLen ∧ ∃ us b a, Drains buf.before buf.after n us b a ∧
    (buf.hasPinnedR = true → ∀ u ∈ us, u.memPinnedR = false) ∧ buf' = buf.drained n us b a)

/-- Draining removes the first bytes of the queue. -/
theorem Evbuffer.Drained.contents_eq {buf buf' : Evbuffer} {n : ℕ} (h : buf.Drained n buf') :
    buf'.contents = buf.contents.drop n := by
  rcases h with ⟨rfl, rfl⟩ | ⟨-, us, b, a, hdrains, -, rfl⟩
  · rfl
  · rw [Evbuffer.drained, invokeCallbacks_eq]
    exact hdrains.queue_eq buf.mem

/-- Draining keeps the chains sound. -/
theorem Evbuffer.Drained.wf {buf buf' : Evbuffer} {n : ℕ} (h : buf.Drained n buf')
    (hwf : buf.Wf) : buf'.Wf := by
  rcases h with ⟨-, rfl⟩ | ⟨hn, us, b, a, hdrains, -, rfl⟩
  · exact hwf
  · exact hwf.drained hdrains hn

/-- What draining leaves alone. -/
theorem Evbuffer.Drained.frame {buf buf' : Evbuffer} {n : ℕ} (h : buf.Drained n buf') :
    buf'.mem = buf.mem ∧ buf'.freezeStart = buf.freezeStart ∧ buf'.freezeEnd = buf.freezeEnd ∧
      buf'.refcnt = buf.refcnt := by
  rcases h with ⟨-, rfl⟩ | ⟨-, us, b, a, -, -, rfl⟩
  · exact ⟨rfl, rfl, rfl, rfl⟩
  · rw [Evbuffer.drained, invokeCallbacks_eq]
    exact ⟨rfl, rfl, rfl, rfl⟩

/-- **Draining**: `evbuffer_drain` on a sound buffer whose front is not frozen does not fail,
and removes `len` bytes, or all there are. -/
theorem evbufferDrain_eq {buf : Evbuffer} (h : buf.Sound) (hfreeze : buf.freezeStart = false)
    (hpins : PinsTrail buf.chains) (len : ℕ) :
    ∃ buf', buf.evbufferDrain len = some (0, buf') ∧
      buf.Drained (min len buf.totalLen) buf' := by
  by_cases hzero : buf.totalLen = 0
  · exact ⟨buf, if_pos hzero, Or.inl ⟨by omega, rfl⟩⟩
  rw [Evbuffer.evbufferDrain, if_neg hzero, hfreeze, if_neg (by decide)]
  split
  case isTrue hall =>
      have hmin : min len buf.totalLen = buf.totalLen := Nat.min_eq_right hall.1
      have hdrains : Drains buf.before buf.after (bytesIn (buf.before ++ buf.after) + 0)
          (buf.before ++ buf.after) [] [] :=
        Drains.inAfter (List.append_nil buf.after).symm
          (fun _ hp => absurd hp (Option.not_mem_none _)) fun _ => rfl
      have hn : bytesIn (buf.before ++ buf.after) + 0 = buf.totalLen := h.total.symm
      rw [hn] at hdrains
      have hlast : buf.hasPinnedR = true →
          ∀ u ∈ buf.before ++ buf.after, u.memPinnedR = false := by
        intro hR
        rw [hR] at hall
        exact absurd hall.2 (by decide)
      refine ⟨_, ?_, Or.inr ⟨Nat.min_le_right _ _, _, _, _, hmin ▸ hdrains, hlast, rfl⟩⟩
      rw [hmin, Evbuffer.drained, Nat.sub_self]
      rfl
  case isFalse hsome =>
      have hn : min len buf.totalLen < buf.totalLen ∨
          (min len buf.totalLen = buf.totalLen ∧ buf.hasPinnedR = true) := by
        by_cases hlt : len < buf.totalLen
        · exact Or.inl (by omega)
        · refine Or.inr ⟨by omega, ?_⟩
          cases hR : buf.hasPinnedR with
          | true => rfl
          | false => exact absurd ⟨by omega, by simp [hR]⟩ hsome
      obtain ⟨us, p, rest, hsplit, hus, hle, hstop⟩ := exists_stop h hpins hn
      -- a chain in front of `*last_with_datap` has data behind it, so it is not pinned
      have hbefore : p ∈ buf.before → p.memPinnedR = false := by
        intro hp
        obtain ⟨c, hc, hoff⟩ := h.leading (List.ne_nil_of_mem hp)
        cases hpin : p.memPinnedR with
        | false => rfl
        | true =>
            have hmem := List.mem_of_mem_head? hc
            exact absurd ((List.pairwise_append.mp hpins).2.2 p hp c hmem hpin) hoff
      obtain ⟨b, a, hdrains, hloop⟩ := exists_drains hsplit hus hle hstop hbefore
      refine ⟨_, ?_, Or.inr ⟨Nat.min_le_right _ _, us, b, a, hdrains, fun _ => hus, rfl⟩⟩
      dsimp only
      rw [hloop]
      rfl

/-- **Removing**: `evbuffer_remove` hands out the first bytes of the queue and removes
them. -/
theorem evbufferRemove_eq {buf : Evbuffer} (h : buf.Wf) (hfreeze : buf.freezeStart = false)
    (hpins : PinsTrail buf.chains) (datlen : ℕ) :
    ∃ buf', buf.evbufferRemove datlen =
        some (((min datlen buf.totalLen : ℕ) : ℤ), buf.contents.take datlen, buf') ∧
      buf.Drained (min datlen buf.totalLen) buf' := by
  rw [Evbuffer.evbufferRemove, evbufferCopyout_eq h hfreeze, Option.bind_some]
  by_cases hzero : min datlen buf.totalLen = 0
  · refine ⟨buf, ?_, Or.inl ⟨hzero, rfl⟩⟩
    rw [hzero]
    rfl
  · have hpos : (0 : ℤ) < ((min datlen buf.totalLen : ℕ) : ℤ) := by omega
    obtain ⟨buf', heq, hdrained⟩ :=
      evbufferDrain_eq h.toSound hfreeze hpins (min datlen buf.totalLen)
    rw [Nat.min_eq_left (Nat.min_le_right _ _)] at hdrained
    refine ⟨buf', ?_, hdrained⟩
    rw [if_pos hpos, Int.toNat_natCast, heq]
    rfl

end IocpEcho
