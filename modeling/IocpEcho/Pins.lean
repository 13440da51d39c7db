import IocpEcho.ByteQueue

/-!
# Pinning Chains and Releasing Them

While an overlapped operation is under way its chains are pinned, so that no one moves or
frees them. `pin_release` finds them again by following `next` pointers from the chain that
was first when the operation was launched. By then chains may have been freed, filled or
added; the release is right as long as the pinned chains still follow one another.

## Main results

* `pinAll_eq`, `unpinLoop_eq`: pinning and unpinning a stretch of chains.
* `pinRelease_eq`: `pin_release` unpins exactly the pinned chains, and frees those that are
  dangling.
-/

namespace IocpEcho

open Regions

namespace EvbufferChain

@[simp] theorem mark_addr (c : EvbufferChain) (v : Bool) (flag : PinFlag) :
    (c.mark v flag).addr = c.addr := by
  cases flag <;> rfl

@[simp] theorem mark_off (c : EvbufferChain) (v : Bool) (flag : PinFlag) :
    (c.mark v flag).off = c.off := by
  cases flag <;> rfl

@[simp] theorem mark_misalign (c : EvbufferChain) (v : Bool) (flag : PinFlag) :
    (c.mark v flag).misalign = c.misalign := by
  cases flag <;> rfl

@[simp] theorem mark_bufferLen (c : EvbufferChain) (v : Bool) (flag : PinFlag) :
    (c.mark v flag).bufferLen = c.bufferLen := by
  cases flag <;> rfl

@[simp] theorem mark_data (c : EvbufferChain) (v : Bool) (flag : PinFlag) :
    (c.mark v flag).data = c.data := by
  cases flag <;> rfl

@[simp] theorem mark_spaceLen (c : EvbufferChain) (v : Bool) (flag : PinFlag) :
    (c.mark v flag).spaceLen = c.spaceLen := by
  cases flag <;> rfl

@[simp] theorem has_mark (c : EvbufferChain) (v : Bool) (flag : PinFlag) :
    (c.mark v flag).has flag = v := by
  cases flag <;> rfl

/-- Setting a flag to the value it has changes nothing. -/
theorem mark_eq_self {c : EvbufferChain} {v : Bool} {flag : PinFlag} (h : c.has flag = v) :
    c.mark v flag = c := by
  subst h
  cases flag <;> rfl

end EvbufferChain

/-- Chains that are not pinned carry neither flag. -/
theorem not_has_of_not_pinned {c : EvbufferChain} (h : c.pinned = false) (flag : PinFlag) :
    c.has flag = false := by
  have hor := Bool.or_eq_false_iff.mp h
  cases flag with
  | memPinnedR => exact hor.1
  | memPinnedW => exact hor.2

/-- Setting a flag to the value it has on a whole list changes nothing. -/
theorem map_mark_eq_self {cs : List EvbufferChain} {v : Bool} {flag : PinFlag}
    (h : ∀ c ∈ cs, c.has flag = v) : cs.map (fun c => c.mark v flag) = cs := by
  conv_rhs => rw [← List.map_id cs]
  exact List.map_congr_left fun c hc => EvbufferChain.mark_eq_self (h c hc)

/-- `_evbuffer_chain_pin` on chains that are not pinned. -/
theorem pinAll_eq {flag : PinFlag} {cs : List EvbufferChain} (h : ∀ c ∈ cs, c.has flag = false) :
    pinAll flag cs = some (cs.map fun c => c.mark true flag) := by
  induction cs with
  | nil => rfl
  | cons c cs ih =>
      rw [pinAll, h c List.mem_cons_self, ih fun d hd => h d (List.mem_cons_of_mem c hd)]
      rfl

/-- `_evbuffer_chain_unpin` on a stretch of pinned chains, the rest not being pinned. -/
theorem unpinLoop_eq {flag : PinFlag} {cs rest : List EvbufferChain}
    (h : ∀ c ∈ cs, c.has flag = true) (hrest : ∀ c ∈ rest, c.has flag = false) :
    unpinLoop flag cs.length (cs ++ rest) =
      some ((cs ++ rest).map fun c => c.mark false flag) := by
  induction cs with
  | nil =>
      rw [List.nil_append, map_mark_eq_self hrest]
      rfl
  | cons c cs ih =>
      rw [List.length_cons, List.cons_append, unpinLoop, h c List.mem_cons_self, if_pos rfl,
        ih fun d hd => h d (List.mem_cons_of_mem c hd)]
      rfl

/-- The walk to the first pinned chain passes exactly the chains in front of it. -/
theorem walk_eq {passed cs : List EvbufferChain} {c : EvbufferChain}
    (h : ((passed ++ c :: cs).map EvbufferChain.addr).Nodup) :
    (passed ++ c :: cs).takeWhile (fun d => d.addr ≠ c.addr) = passed ∧
    (passed ++ c :: cs).dropWhile (fun d => d.addr ≠ c.addr) = c :: cs := by
  have hne : ∀ d ∈ passed, decide (d.addr ≠ c.addr) = true := by
    intro d hd
    rw [List.map_append] at h
    have hdisj := (List.nodup_append.mp h).2.2
    exact decide_eq_true (hdisj _ (List.mem_map_of_mem hd) _ (by simp))
  constructor
  · rw [List.takeWhile_append_of_pos hne, List.takeWhile_cons_of_neg (by simp),
      List.append_nil]
  · rw [List.dropWhile_append_of_pos hne, List.dropWhile_cons_of_neg (by simp)]

/-- A reference more and a reference less. -/
theorem Evbuffer.decrefAndUnlock_of_two {buf : Evbuffer} (h : buf.refcnt = 2) :
    buf.decrefAndUnlock = some { buf with refcnt := 1 } := by
  rw [Evbuffer.decrefAndUnlock, if_neg (by omega), if_pos (by omega), h]

/-- Changing every linked chain in its place. -/
theorem relink_map (buf : Evbuffer) (f : EvbufferChain → EvbufferChain) :
    buf.relink (buf.linked.map f) = { buf with
      dangling := (buf.dangling.map f).filter EvbufferChain.pinned
      before := buf.before.map f
      after := buf.after.map f } := by
  have hmap : buf.linked.map f =
      buf.dangling.map f ++ (buf.before.map f ++ buf.after.map f) := by
    rw [Evbuffer.linked, Evbuffer.chains, List.map_append, List.map_append]
  have hdangling : (buf.dangling.map f).length = buf.dangling.length := List.length_map f
  have hbefore : (buf.before.map f).length = buf.before.length := List.length_map f
  rw [Evbuffer.relink, hmap, List.take_left' hdangling, List.drop_left' hdangling,
    List.take_left' hbefore, List.drop_left' hbefore]

/-- **Releasing**: when the pinned chains follow one another in the list that `next` pointers
lead through, `pin_release` unpins them all and frees the dangling ones. -/
theorem pinRelease_eq {eo : EvbufferOverlapped} {flag : PinFlag}
    {passed pinned rest : List EvbufferChain}
    (hlinked : eo.buffer.linked = passed ++ (pinned ++ rest)) (hne : pinned ≠ [])
    (hpassed : ∀ c ∈ passed, c.has flag = false) (hpinned : ∀ c ∈ pinned, c.has flag = true)
    (hrest : ∀ c ∈ rest, c.has flag = false)
    (hfirst : eo.firstPinned = pinned.head?.map EvbufferChain.addr)
    (hlen : eo.buffers.length = pinned.length)
    (hnodup : (eo.buffer.linked.map EvbufferChain.addr).Nodup) :
    eo.pinRelease flag = some { eo with
      buffer := eo.buffer.relink (eo.buffer.linked.map fun c => c.mark false flag) } := by
  have hmap : eo.buffer.linked.map (fun c => c.mark false flag) =
      passed ++ (pinned ++ rest).map fun c => c.mark false flag := by
    rw [hlinked, List.map_append, map_mark_eq_self hpassed]
  cases pinned with
  | nil => exact absurd rfl hne
  | cons c pinned =>
      rw [hlinked, List.cons_append] at hnodup
      obtain ⟨htake, hdrop⟩ := walk_eq hnodup
      have hloop := unpinLoop_eq hpinned hrest
      rw [← hlen, List.cons_append] at hloop
      rw [EvbufferOverlapped.pinRelease, hfirst, hmap]
      dsimp only [List.head?_cons, Option.map_some]
      rw [hlinked, List.cons_append, htake, hdrop, hloop]
      rfl

/-! ### Flags and soundness -/

/-- A chain without its flags. -/
def EvbufferChain.unmarked (c : EvbufferChain) : EvbufferChain :=
  { c with memPinnedR := false, memPinnedW := false, dangling := false }

@[simp] theorem EvbufferChain.unmarked_mark (c : EvbufferChain) (v : Bool) (flag : PinFlag) :
    (c.mark v flag).unmarked = c.unmarked := by
  cases flag <;> rfl

/-- Chains that differ only in flags have the same data and the same space. -/
theorem EvbufferChain.eq_of_unmarked {c d : EvbufferChain} (h : c.unmarked = d.unmarked) :
    c.addr = d.addr ∧ c.bufferLen = d.bufferLen ∧ c.misalign = d.misalign ∧ c.off = d.off := by
  simp only [unmarked, EvbufferChain.mk.injEq] at h
  exact ⟨h.1, h.2.1, h.2.2.1, h.2.2.2.1⟩

/-- Lists that differ only in flags have the same chains. -/
theorem exists_of_unmarked {cs ds : List EvbufferChain}
    (h : ds.map EvbufferChain.unmarked = cs.map EvbufferChain.unmarked) {d : EvbufferChain}
    (hd : d ∈ ds) : ∃ c ∈ cs, c.unmarked = d.unmarked := by
  have hmem : d.unmarked ∈ cs.map EvbufferChain.unmarked := h ▸ List.mem_map_of_mem hd
  exact List.mem_map.mp hmem

/-- Flags have no part in the number of bytes and in the space. -/
theorem sizes_map_unmarked (cs : List EvbufferChain) :
    bytesIn (cs.map EvbufferChain.unmarked) = bytesIn cs ∧
      spaces (cs.map EvbufferChain.unmarked) = spaces cs := by
  induction cs with
  | nil => exact ⟨rfl, rfl⟩
  | cons c cs ih =>
      rw [List.map_cons, bytesIn_cons, bytesIn_cons, spaces_cons, spaces_cons, ih.1, ih.2]
      exact ⟨rfl, rfl⟩

theorem bytesIn_unmarked {cs ds : List EvbufferChain}
    (h : ds.map EvbufferChain.unmarked = cs.map EvbufferChain.unmarked) :
    bytesIn ds = bytesIn cs := by
  rw [← (sizes_map_unmarked ds).1, h, (sizes_map_unmarked cs).1]

theorem spaces_unmarked {cs ds : List EvbufferChain}
    (h : ds.map EvbufferChain.unmarked = cs.map EvbufferChain.unmarked) :
    spaces ds = spaces cs := by
  rw [← (sizes_map_unmarked ds).2, h, (sizes_map_unmarked cs).2]

theorem queue_unmarked (mem : ℕ → ℕ → Byte) {cs ds : List EvbufferChain}
    (h : ds.map EvbufferChain.unmarked = cs.map EvbufferChain.unmarked) :
    queue mem ds = queue mem cs := by
  have := congrArg (fun es => slices mem (List.map EvbufferChain.data es)) h
  rw [List.map_map, List.map_map] at this
  exact this

theorem map_addr_unmarked {cs ds : List EvbufferChain}
    (h : ds.map EvbufferChain.unmarked = cs.map EvbufferChain.unmarked) :
    ds.map EvbufferChain.addr = cs.map EvbufferChain.addr := by
  have := congrArg (List.map EvbufferChain.addr) h
  rw [List.map_map, List.map_map] at this
  exact this

/-- Flags have no part in soundness. -/
theorem Evbuffer.Sound.of_unmarked {buf buf' : Evbuffer} (h : buf.Sound)
    (hbefore : buf'.before.map EvbufferChain.unmarked = buf.before.map EvbufferChain.unmarked)
    (hafter : buf'.after.map EvbufferChain.unmarked = buf.after.map EvbufferChain.unmarked)
    (htotal : buf'.totalLen = buf.totalLen) (hnext : buf'.nextAddr = buf.nextAddr) :
    buf'.Sound := by
  have hchains : buf'.chains.map EvbufferChain.unmarked =
      buf.chains.map EvbufferChain.unmarked := by
    rw [Evbuffer.chains, Evbuffer.chains, List.map_append, List.map_append, hbefore, hafter]
  refine ⟨fun d hd => ?_, ?_, ?_, fun d hd => ?_, fun d hd => ?_, fun hne => ?_⟩
  · obtain ⟨c, hc, heq⟩ := exists_of_unmarked hchains hd
    have := h.fits c hc
    obtain ⟨-, hlen, hmis, hoff⟩ := EvbufferChain.eq_of_unmarked heq
    omega
  · rw [htotal, h.total, bytesIn_unmarked hchains]
  · rw [map_addr_unmarked hchains]
    exact h.nodup
  · obtain ⟨c, hc, heq⟩ := exists_of_unmarked hchains hd
    rw [hnext, ← (EvbufferChain.eq_of_unmarked heq).1]
    exact h.fresh c hc
  · have htail : buf'.after.tail.map EvbufferChain.unmarked =
        buf.after.tail.map EvbufferChain.unmarked := by
      rw [List.map_tail, List.map_tail, hafter]
    obtain ⟨c, hc, heq⟩ := exists_of_unmarked htail hd
    rw [← (EvbufferChain.eq_of_unmarked heq).2.2.2]
    exact h.trailing c hc
  · have hne' : buf.before ≠ [] := by
      intro hnil
      rw [hnil, List.map_nil, List.map_eq_nil_iff] at hbefore
      exact hne hbefore
    obtain ⟨c, hc, hoff⟩ := h.leading hne'
    have hhead := congrArg List.head? hafter
    rw [List.head?_map, List.head?_map, Option.mem_def.mp hc] at hhead
    obtain ⟨d, hd, heq⟩ := Option.map_eq_some_iff.mp hhead
    refine ⟨d, hd, ?_⟩
    rwa [(EvbufferChain.eq_of_unmarked heq).2.2.2]

/-- Flags have no part in the queue. -/
theorem contents_unmarked {buf buf' : Evbuffer} (hmem : buf'.mem = buf.mem)
    (hbefore : buf'.before.map EvbufferChain.unmarked = buf.before.map EvbufferChain.unmarked)
    (hafter : buf'.after.map EvbufferChain.unmarked = buf.after.map EvbufferChain.unmarked) :
    buf'.contents = buf.contents := by
  have hchains : buf'.chains.map EvbufferChain.unmarked =
      buf.chains.map EvbufferChain.unmarked := by
    rw [Evbuffer.chains, Evbuffer.chains, List.map_append, List.map_append, hbefore, hafter]
  rw [Evbuffer.contents, Evbuffer.contents, hmem]
  exact queue_unmarked buf.mem hchains

/-- Marking a list of chains. -/
theorem map_unmarked_mark (cs : List EvbufferChain) (v : Bool) (flag : PinFlag) :
    (cs.map fun c => c.mark v flag).map EvbufferChain.unmarked =
      cs.map EvbufferChain.unmarked := by
  rw [List.map_map]
  exact List.map_congr_left fun c _ => c.unmarked_mark v flag

/-- Marking chains leaves their space. -/
theorem spaces_map_mark (cs : List EvbufferChain) (v : Bool) (flag : PinFlag) :
    spaces (cs.map fun c => c.mark v flag) = spaces cs :=
  spaces_unmarked (map_unmarked_mark cs v flag)

end IocpEcho
