import IocpEcho.Vectors

/-!
# Appending to an Evbuffer

`evbuffer_add` puts bytes behind those of the last chain: into its free space, into the space
that moving its data to the front of the block makes, or into a new chain. It goes by
`buf->last`; the bytes belong to the queue only if that is the chain `*last_with_datap`, which
is so in a buffer that never reads (`Evbuffer.Compact`).

## Main results

* `evbufferAdd_eq`: on a compact buffer `evbuffer_add` does not fail an assertion; it appends
  all bytes, or it returns `-1` and leaves the buffer as it is.
-/

namespace IocpEcho

open Regions

namespace Evbuffer

/-- The last chain is `*last_with_datap`. -/
def Compact (buf : Evbuffer) : Prop :=
  buf.after.length ≤ 1

/-- A buffer after bytes have been appended to its queue. The chains behind the first ones may
have been replaced, unless they are pinned; the first ones have at most grown, and their bytes
are where they were. -/
structure Appended (buf : Evbuffer) (data : List Byte) (buf' : Evbuffer) : Prop where
  sound : buf'.Sound
  compact : buf'.Compact
  contents_eq : buf'.contents = buf.contents ++ data
  counted : buf'.nAddForCb = buf.nAddForCb + data.length ∧ buf'.nDelForCb = buf.nDelForCb ∧
    buf'.infos = buf.infos
  frame : buf'.freezeStart = buf.freezeStart ∧ buf'.freezeEnd = buf.freezeEnd ∧
    buf'.refcnt = buf.refcnt ∧ buf'.dangling = buf.dangling
  full : ∀ d ∈ buf'.before, d.off = 0 →
    ∃ c ∈ buf.chains, c.off = 0 ∧ (c ∈ buf.before ∨ c.pinned = true)
  kept : ∃ init cs init' ds, buf.chains = init ++ cs ∧ buf'.chains = init' ++ ds ∧
    List.Forall₂ Grown init init' ∧ (∀ c ∈ cs, c.pinned = false) ∧
    (∀ d ∈ ds, d.pinned = false) ∧
    ∀ c ∈ init, ∀ i < c.misalign + c.off, buf'.mem c.addr i = buf.mem c.addr i

/-- In a compact buffer there is no chain, or the last one is `*last_with_datap`. -/
theorem Compact.cases {buf : Evbuffer} (h : buf.Compact) (hsound : buf.Sound) :
    (buf.before = [] ∧ buf.after = []) ∨ ∃ c, buf.after = [c] := by
  rw [Compact] at h
  rcases hafter : buf.after with _ | ⟨c, cs⟩
  · refine Or.inl ⟨?_, rfl⟩
    by_contra hne
    obtain ⟨c, hc, -⟩ := hsound.leading hne
    rw [hafter] at hc
    cases hc
  · rw [hafter, List.length_cons] at h
    obtain rfl : cs = [] := List.length_eq_zero_iff.mp (by omega)
    exact Or.inr ⟨c, rfl⟩

/-! ### Into the last chain -/

/-- The buffer with `data` behind the data of its last chain. -/
def extendLast (buf : Evbuffer) (c : EvbufferChain) (data : List Byte) : Evbuffer :=
  { buf with
    mem := write buf.mem c.addr (c.misalign + c.off) data
    after := [c.extend data.length]
    totalLen := buf.totalLen + data.length
    nAddForCb := buf.nAddForCb + data.length }

/-- Copying into the free space of the last chain. -/
theorem memcpy_last {buf : Evbuffer} {c : EvbufferChain} {data : List Byte}
    (hafter : buf.after = [c]) (hroom : c.misalign + c.off + data.length ≤ c.bufferLen) :
    (buf.memcpy c (c.misalign + c.off) data).map (fun b =>
      (b.setLast (c.extend data.length)).added data.length) = some (buf.extendLast c data) := by
  rw [memcpy, if_pos hroom, Option.map_some, setLast]
  dsimp only
  rw [hafter]
  rfl

/-- A buffer that ends in a grown chain. -/
theorem sound_extendLast {buf : Evbuffer} {c : EvbufferChain} {data : List Byte}
    (h : buf.Sound) (hafter : buf.after = [c])
    (hroom : c.misalign + c.off + data.length ≤ c.bufferLen) :
    (buf.extendLast c data).Sound := by
  have hchains : buf.chains = buf.before ++ [c] := by rw [chains, hafter]
  have hlast : c ∈ buf.chains := by rw [hchains]; simp
  refine ⟨fun d hd => ?_, ?_, ?_, fun d hd => ?_, List.forall_mem_nil _, fun hne => ?_⟩
  · rcases List.mem_append.mp hd with hd | hd
    · exact h.fits d (hchains ▸ List.mem_append_left _ hd)
    · rw [List.mem_singleton.mp hd]
      simp only [EvbufferChain.extend]
      omega
  · have htotal := h.total
    rw [hchains, bytesIn_append, bytesIn_cons, bytesIn_nil] at htotal
    change buf.totalLen + data.length = bytesIn (buf.before ++ [c.extend data.length])
    rw [bytesIn_append, bytesIn_cons, bytesIn_nil]
    simp only [EvbufferChain.extend]
    omega
  · have := h.nodup
    rw [hchains, List.map_append] at this
    change ((buf.before ++ [c.extend data.length]).map EvbufferChain.addr).Nodup
    rw [List.map_append]
    exact this
  · rcases List.mem_append.mp hd with hd | hd
    · exact h.fresh d (hchains ▸ List.mem_append_left _ hd)
    · rw [List.mem_singleton.mp hd]
      exact h.fresh c hlast
  · obtain ⟨d, hd, hoff⟩ := h.leading hne
    rw [hafter] at hd
    obtain rfl : c = d := Option.some.inj hd
    refine ⟨_, rfl, ?_⟩
    simp only [EvbufferChain.extend]
    omega

/-- The queue of a buffer that ends in a grown chain. -/
theorem contents_extendLast {buf : Evbuffer} {c : EvbufferChain} {data : List Byte}
    (h : buf.Sound) (hafter : buf.after = [c]) :
    (buf.extendLast c data).contents = buf.contents ++ data := by
  have hchains : buf.chains = buf.before ++ [c] := by rw [chains, hafter]
  have hlast : c ∈ buf.chains := by rw [hchains]; simp
  have hsame := contents_write h hlast (Nat.le_refl _) data
  calc (buf.extendLast c data).contents
      = queue (write buf.mem c.addr (c.misalign + c.off) data)
          (buf.before ++ [c.extend data.length]) := rfl
    _ = queue (write buf.mem c.addr (c.misalign + c.off) data) (buf.before ++ [c]) ++ data := by
        rw [queue_append, queue_append, queue_cons, queue_cons, c.cells_extend, slice_write_self,
          queue_nil]
        simp
    _ = buf.contents ++ data := by
        rw [← hchains, ← hsame]
        rfl

/-- Bytes behind the data of a chain of the buffer leave the data of all chains where it is. -/
theorem write_behind {buf : Evbuffer} (h : buf.Sound) {c : EvbufferChain} (hc : c ∈ buf.chains)
    (data : List Byte) {d : EvbufferChain} (hd : d ∈ buf.chains) {i : ℕ}
    (hi : i < d.misalign + d.off) :
    write buf.mem c.addr (c.misalign + c.off) data d.addr i = buf.mem d.addr i := by
  by_cases haddr : d.addr = c.addr
  · obtain rfl : d = c := List.inj_on_of_nodup_map h.nodup hd hc haddr
    rw [write_self, overwrite_of_lt _ _ hi]
  · rw [write_of_ne _ haddr]

/-- **Into the free space of the last chain.** -/
theorem appended_extendLast {buf : Evbuffer} {c : EvbufferChain} {data : List Byte}
    (h : buf.Sound) (hafter : buf.after = [c])
    (hroom : c.misalign + c.off + data.length ≤ c.bufferLen) :
    buf.Appended data (buf.extendLast c data) := by
  have hchains : buf.chains = buf.before ++ [c] := by rw [chains, hafter]
  have hlast : c ∈ buf.chains := by rw [hchains]; simp
  refine ⟨sound_extendLast h hafter hroom, Nat.le_refl 1, contents_extendLast h hafter,
    ⟨rfl, rfl, rfl⟩, ⟨rfl, rfl, rfl, rfl⟩,
    fun d hd hoff => ⟨d, List.mem_append_left _ hd, hoff, Or.inl hd⟩, buf.before ++ [c], [],
    buf.before ++ [c.extend data.length], [], ?_, (List.append_nil _).symm, ?_,
    (List.forall_mem_nil _), List.forall_mem_nil _, fun d hd i hi => ?_⟩
  · rw [List.append_nil, hchains]
  · refine List.rel_append (List.forall₂_same.mpr fun d _ => Grown.refl d) ?_
    refine List.Forall₂.cons ⟨data.length, ?_, rfl⟩ List.Forall₂.nil
    rw [EvbufferChain.spaceLen]
    omega
  · exact write_behind h hlast data (hchains ▸ hd) hi

/-! ### By moving the data to the front -/

/-- The buffer after `evbuffer_chain_align` on its last chain. -/
def alignLast (buf : Evbuffer) (c : EvbufferChain) : Evbuffer :=
  { buf with
    mem := write buf.mem c.addr 0 (c.data.cells buf.mem)
    after := [{ c with misalign := 0 }] }

theorem sound_alignLast {buf : Evbuffer} {c : EvbufferChain} (h : buf.Sound)
    (hafter : buf.after = [c]) : (buf.alignLast c).Sound := by
  have hchains : buf.chains = buf.before ++ [c] := by rw [chains, hafter]
  have hlast : c ∈ buf.chains := by rw [hchains]; simp
  refine ⟨fun d hd => ?_, ?_, ?_, fun d hd => ?_, List.forall_mem_nil _, fun hne => ?_⟩
  · rcases List.mem_append.mp hd with hd | hd
    · exact h.fits d (hchains ▸ List.mem_append_left _ hd)
    · have := h.fits c hlast
      rw [List.mem_singleton.mp hd]
      dsimp only
      omega
  · have htotal := h.total
    rw [hchains, bytesIn_append, bytesIn_cons] at htotal
    change buf.totalLen = bytesIn (buf.before ++ [{ c with misalign := 0 }])
    rw [bytesIn_append, bytesIn_cons]
    exact htotal
  · have := h.nodup
    rw [hchains, List.map_append] at this
    change ((buf.before ++ [{ c with misalign := 0 }]).map EvbufferChain.addr).Nodup
    rw [List.map_append]
    exact this
  · rcases List.mem_append.mp hd with hd | hd
    · exact h.fresh d (hchains ▸ List.mem_append_left _ hd)
    · rw [List.mem_singleton.mp hd]
      exact h.fresh c hlast
  · obtain ⟨d, hd, hoff⟩ := h.leading hne
    rw [hafter] at hd
    obtain rfl : c = d := Option.some.inj hd
    exact ⟨_, rfl, hoff⟩

/-- `evbuffer_chain_align` does not change the queue. -/
theorem contents_alignLast {buf : Evbuffer} {c : EvbufferChain} (h : buf.Sound)
    (hafter : buf.after = [c]) : (buf.alignLast c).contents = buf.contents := by
  have hchains : buf.chains = buf.before ++ [c] := by rw [chains, hafter]
  have hbefore : queue (write buf.mem c.addr 0 (c.data.cells buf.mem)) buf.before =
      queue buf.mem buf.before := by
    refine slices_write_of_avoids fun r hr hblock => ?_
    obtain ⟨d, hd, rfl⟩ := List.mem_map.mp hr
    have hnodup := h.nodup
    rw [hchains, List.map_append] at hnodup
    exact absurd hblock ((List.nodup_append.mp hnodup).2.2 _ (List.mem_map_of_mem hd) _ (by simp))
  have hmoved : EvbufferChain.data { c with misalign := 0 } = ⟨c.addr, 0, c.off⟩ := rfl
  have hcells : Region.cells (write buf.mem c.addr 0 (c.data.cells buf.mem))
      (⟨c.addr, 0, c.off⟩ : Region ℕ) = c.data.cells buf.mem := by
    have := slice_write_self buf.mem c.addr 0 (c.data.cells buf.mem)
    rwa [length_cells_data] at this
  calc (buf.alignLast c).contents
      = queue (write buf.mem c.addr 0 (c.data.cells buf.mem))
          (buf.before ++ [{ c with misalign := 0 }]) := rfl
    _ = queue buf.mem buf.before ++ c.data.cells buf.mem := by
        rw [queue_append, hbefore, queue_cons, hmoved, hcells, queue_nil, List.append_nil]
    _ = buf.contents := by
        rw [contents, hchains, ← queue, queue_append, queue_cons, queue_nil, List.append_nil]

/-- **By moving the data to the front** of an unpinned last chain. -/
theorem appended_alignLast {buf : Evbuffer} {c : EvbufferChain} {data : List Byte}
    (h : buf.Sound) (hafter : buf.after = [c]) (hunpinned : c.pinned = false)
    (hroom : c.off + data.length ≤ c.bufferLen) :
    buf.Appended data ((buf.alignLast c).extendLast { c with misalign := 0 } data) := by
  have hchains : buf.chains = buf.before ++ [c] := by rw [chains, hafter]
  have hgrown : (buf.alignLast c).Appended data _ :=
    appended_extendLast (sound_alignLast h hafter) rfl (by simpa using hroom)
  refine ⟨hgrown.sound, hgrown.compact, ?_, ⟨rfl, rfl, rfl⟩, ⟨rfl, rfl, rfl, rfl⟩,
    fun d hd hoff => ⟨d, List.mem_append_left _ hd, hoff, Or.inl hd⟩, buf.before, [c], buf.before,
    [EvbufferChain.extend { c with misalign := 0 } data.length], hchains, rfl,
    List.forall₂_same.mpr fun d _ => Grown.refl d, ?_, ?_, fun d hd i _ => ?_⟩
  · rw [hgrown.contents_eq, contents_alignLast h hafter]
  · simpa using hunpinned
  · intro d hd
    rw [List.mem_singleton.mp hd]
    exact hunpinned
  · have hnodup := h.nodup
    rw [hchains, List.map_append] at hnodup
    have hne : d.addr ≠ c.addr :=
      (List.nodup_append.mp hnodup).2.2 _ (List.mem_map_of_mem hd) _ (by simp)
    change write (write buf.mem c.addr 0 _) c.addr _ data d.addr i = _
    rw [write_of_ne _ hne, write_of_ne _ hne]

/-! ### Into a new chain -/

/-- The buffer with `data` in a new last chain, in front of which stay the chains `before`. -/
def insertLast (buf : Evbuffer) (before : List EvbufferChain) (tmp : EvbufferChain)
    (data : List Byte) : Evbuffer :=
  { buf with
    mem := write buf.mem tmp.addr 0 data
    before := before
    after := [{ tmp with off := data.length }]
    totalLen := buf.totalLen + data.length
    nAddForCb := buf.nAddForCb + data.length }

/-- `evbuffer_chain_insert` of a chain with data: the last chain stays if it has data or is
pinned. -/
theorem chainInsert_eq {buf : Evbuffer} {c tmp : EvbufferChain} {data : List Byte}
    (hafter : buf.after = [c]) (hdata : data ≠ []) (hroom : data.length ≤ tmp.bufferLen) :
    (buf.memcpy tmp 0 data).bind (fun buf =>
      (buf.chainInsert { tmp with off := data.length }).map fun buf =>
        { buf with nAddForCb := buf.nAddForCb + data.length }) =
      some (buf.insertLast (if c.off ≠ 0 || c.pinned then buf.before ++ [c] else buf.before)
        tmp data) := by
  have hlen : data.length ≠ 0 := fun hzero => hdata (List.length_eq_zero_iff.mp hzero)
  rw [memcpy, if_pos (by rw [Nat.zero_add]; exact hroom), Option.bind_some, chainInsert]
  dsimp only
  rw [hafter]
  dsimp only
  by_cases hc : (c.off ≠ 0 || c.pinned) = true
  · rw [List.dropWhile_cons, if_pos hc, if_pos hc, List.dropWhile_nil, if_pos rfl, if_neg hlen]
    rfl
  · have hoff : c.off = 0 ∧ c.pinned = false := by simpa using hc
    rw [List.dropWhile_cons, List.takeWhile_cons, if_neg hc, if_neg hc, if_neg hc,
      if_neg (List.cons_ne_nil _ _), if_pos (by simpa using hoff.1), Option.map_some, freeAll]
    simp [hoff.2, insertLast]

/-- The chains in front of a new last chain: the one that was last goes if it is empty and not
pinned. -/
def leftBefore (buf : Evbuffer) (c : EvbufferChain) : List EvbufferChain :=
  if c.off ≠ 0 || c.pinned then buf.before ++ [c] else buf.before

/-- The chains in front of a new last chain hold the whole queue. -/
theorem queue_leftBefore {buf : Evbuffer} {c : EvbufferChain} (hafter : buf.after = [c])
    (mem : ℕ → ℕ → Byte) : queue mem (buf.leftBefore c) = queue mem buf.chains := by
  rw [leftBefore, chains, hafter]
  split
  case isTrue => rfl
  case isFalse hc =>
      have hoff : c.off = 0 := by
        by_contra hne
        simp [hne] at hc
      have hempty : queue mem [c] = [] :=
        queue_eq_nil fun d hd => by rw [List.mem_singleton.mp hd, hoff]
      rw [queue_append, hempty, List.append_nil]

theorem leftBefore_sublist {buf : Evbuffer} {c : EvbufferChain} (hafter : buf.after = [c]) :
    (buf.leftBefore c).Sublist buf.chains := by
  rw [leftBefore, chains, hafter]
  split
  case isTrue => exact List.Sublist.refl _
  case isFalse => exact List.sublist_append_left _ _

/-- A chain that the buffer has not used yet. -/
structure Unused (buf : Evbuffer) (tmp : EvbufferChain) : Prop where
  ne : ∀ c ∈ buf.chains, c.addr ≠ tmp.addr
  lt : tmp.addr < buf.nextAddr
  misalign_eq : tmp.misalign = 0
  unpinned : tmp.pinned = false

theorem sound_insertLast {buf : Evbuffer} {c tmp : EvbufferChain} {data : List Byte}
    (h : buf.Sound) (hafter : buf.after = [c]) (htmp : buf.Unused tmp) (hdata : data ≠ [])
    (hroom : data.length ≤ tmp.bufferLen) :
    (buf.insertLast (buf.leftBefore c) tmp data).Sound := by
  have hsub := leftBefore_sublist hafter
  have hbytes : bytesIn (buf.leftBefore c) = bytesIn buf.chains := by
    rw [← length_queue buf.mem, ← length_queue buf.mem, queue_leftBefore hafter]
  refine ⟨fun d hd => ?_, ?_, ?_, fun d hd => ?_, List.forall_mem_nil _, fun _ => ?_⟩
  · rcases List.mem_append.mp hd with hd | hd
    · exact h.fits d (hsub.subset hd)
    · rw [List.mem_singleton.mp hd]
      dsimp only
      rw [htmp.misalign_eq, Nat.zero_add]
      exact hroom
  · change buf.totalLen + data.length =
      bytesIn (buf.leftBefore c ++ [{ tmp with off := data.length }])
    rw [bytesIn_append, hbytes, ← h.total]
    rfl
  · change ((buf.leftBefore c ++ [{ tmp with off := data.length }]).map EvbufferChain.addr).Nodup
    rw [List.map_append]
    refine List.nodup_append.mpr
      ⟨(hsub.map EvbufferChain.addr).nodup h.nodup, List.nodup_singleton _, ?_⟩
    intro a ha b hb
    obtain ⟨d, hd, rfl⟩ := List.mem_map.mp ha
    rw [List.mem_singleton.mp hb]
    exact htmp.ne d (hsub.subset hd)
  · rcases List.mem_append.mp hd with hd | hd
    · exact h.fresh d (hsub.subset hd)
    · rw [List.mem_singleton.mp hd]
      exact htmp.lt
  · exact ⟨_, rfl, fun hzero => hdata (List.length_eq_zero_iff.mp hzero)⟩

theorem contents_insertLast {buf : Evbuffer} {c tmp : EvbufferChain} {data : List Byte}
    (hafter : buf.after = [c]) (htmp : buf.Unused tmp) :
    (buf.insertLast (buf.leftBefore c) tmp data).contents = buf.contents ++ data := by
  have hsame : queue (write buf.mem tmp.addr 0 data) buf.chains = buf.contents := by
    refine slices_write_of_avoids fun r hr hblock => ?_
    obtain ⟨d, hd, rfl⟩ := List.mem_map.mp hr
    exact absurd hblock (htmp.ne d hd)
  have hcells : Region.cells (write buf.mem tmp.addr 0 data) (⟨tmp.addr, 0, data.length⟩ : Region ℕ)
      = data := slice_write_self buf.mem tmp.addr 0 data
  have hnew : EvbufferChain.data { tmp with off := data.length } = ⟨tmp.addr, 0, data.length⟩ := by
    rw [EvbufferChain.data, htmp.misalign_eq]
  calc (buf.insertLast (buf.leftBefore c) tmp data).contents
      = queue (write buf.mem tmp.addr 0 data)
          (buf.leftBefore c ++ [{ tmp with off := data.length }]) := rfl
    _ = buf.contents ++ data := by
        rw [queue_append, queue_leftBefore hafter, hsame, queue_cons, hnew, hcells, queue_nil,
          List.append_nil]

/-- **Into a new chain**, after the last chain has been filled. -/
theorem appended_insertLast {buf : Evbuffer} {c tmp : EvbufferChain} {data : List Byte}
    {remain : ℕ} (h : buf.Sound) (hafter : buf.after = [c])
    (hfill : c.misalign + c.off + remain ≤ c.bufferLen) (hmore : remain < data.length)
    {size : ℕ} (htmp : tmp.IsNew buf.nextAddr size) (hsize : data.length ≤ size) :
    buf.Appended data
      (((extendLast { buf with nextAddr := buf.nextAddr + 1 } c (data.take remain)).insertLast
        (leftBefore (extendLast { buf with nextAddr := buf.nextAddr + 1 } c (data.take remain))
          (c.extend remain)) tmp (data.drop remain))) := by
  have htake : (data.take remain).length = remain := by
    rw [List.length_take]
    omega
  have hnext : Sound { buf with nextAddr := buf.nextAddr + 1 } :=
    ⟨h.fits, h.total, h.nodup, fun d hd => Nat.lt_succ_of_lt (h.fresh d hd), h.trailing, h.leading⟩
  have hfilled : Appended { buf with nextAddr := buf.nextAddr + 1 } (data.take remain) _ :=
    appended_extendLast hnext hafter (by rw [htake]; exact hfill)
  -- the last chain, filled
  have hafter' : (extendLast { buf with nextAddr := buf.nextAddr + 1 } c (data.take remain)).after =
      [c.extend remain] := by
    rw [extendLast, htake]
  have hunused :
      (extendLast { buf with nextAddr := buf.nextAddr + 1 } c (data.take remain)).Unused tmp := by
    refine ⟨fun d hd => ?_, ?_, htmp.misalign_eq, ?_⟩
    · have hlt : d.addr < buf.nextAddr := by
        rcases List.mem_append.mp hd with hd | hd
        · exact h.fresh d (List.mem_append_left _ hd)
        · rw [List.mem_singleton.mp hd]
          exact h.fresh c (List.mem_append_right _ (hafter ▸ List.mem_singleton_self c))
      rw [htmp.addr_eq]
      exact Nat.ne_of_lt hlt
    · rw [htmp.addr_eq]
      exact Nat.lt_succ_self _
    · rw [EvbufferChain.pinned, htmp.unpinned.1, htmp.unpinned.2]
      rfl
  have hrest : data.drop remain ≠ [] := by
    rw [ne_eq, List.drop_eq_nil_iff]
    omega
  have hroom : (data.drop remain).length ≤ tmp.bufferLen := by
    have := htmp.size_le
    rw [List.length_drop]
    omega
  have hlen : buf.nAddForCb + (data.take remain).length + (data.drop remain).length =
      buf.nAddForCb + data.length := by
    rw [htake, List.length_drop]
    omega
  refine ⟨sound_insertLast hfilled.sound hafter' hunused hrest hroom, Nat.le_refl 1, ?_,
    ⟨hlen, rfl, rfl⟩, ⟨rfl, rfl, rfl, rfl⟩, fun d hd hoff => ?_, ?_⟩
  · rw [contents_insertLast hafter' hunused, hfilled.contents_eq, List.append_assoc,
      List.take_append_drop]
    rfl
  · have hd' : d ∈ leftBefore (extendLast { buf with nextAddr := buf.nextAddr + 1 } c
        (data.take remain)) (c.extend remain) := hd
    rw [leftBefore] at hd'
    split at hd'
    case isTrue hc =>
        rcases List.mem_append.mp hd' with hd' | hd'
        · exact ⟨d, List.mem_append_left _ hd', hoff, Or.inl hd'⟩
        · -- the chain that was last has been filled, so it is pinned if it is empty
          obtain rfl := List.mem_singleton.mp hd'
          have hpinned : (c.extend remain).pinned = true := by simpa [hoff] using hc
          have hzero : c.off + remain = 0 := hoff
          exact ⟨c, List.mem_append_right _ (hafter ▸ List.mem_singleton_self c), by omega,
            Or.inr hpinned⟩
    case isFalse => exact ⟨d, List.mem_append_left _ hd', hoff, Or.inl hd'⟩
  · have hlast : c ∈ buf.chains := List.mem_append_right _ (hafter ▸ List.mem_singleton_self c)
    have hnew : EvbufferChain.pinned { tmp with off := (data.drop remain).length } = false :=
      hunused.unpinned
    have hmem : ∀ d ∈ buf.chains, ∀ i < d.misalign + d.off,
        write (write buf.mem c.addr (c.misalign + c.off) (data.take remain)) tmp.addr 0
          (data.drop remain) d.addr i = buf.mem d.addr i := by
      intro d hd i hi
      have hne : d.addr ≠ tmp.addr := by
        rw [htmp.addr_eq]
        exact Nat.ne_of_lt (h.fresh d hd)
      rw [write_of_ne _ hne, write_behind h hlast _ hd hi]
    by_cases hc : ((c.extend remain).off ≠ 0 || (c.extend remain).pinned) = true
    · refine ⟨buf.before ++ [c], [], buf.before ++ [c.extend remain],
        [{ tmp with off := (data.drop remain).length }], ?_, ?_, ?_, List.forall_mem_nil _, ?_,
        fun d hd i hi => ?_⟩
      · rw [List.append_nil, chains, hafter]
      · rw [chains, insertLast, leftBefore, if_pos hc]
        rfl
      · refine List.rel_append (List.forall₂_same.mpr fun d _ => Grown.refl d) ?_
        refine List.Forall₂.cons ⟨remain, ?_, rfl⟩ List.Forall₂.nil
        rw [EvbufferChain.spaceLen]
        omega
      · intro d hd
        rw [List.mem_singleton.mp hd]
        exact hnew
      · exact hmem d (by rw [chains, hafter]; exact hd) i hi
    · have hoff : c.off = 0 ∧ remain = 0 ∧ c.pinned = false := by
        have hc' : (c.extend remain).off = 0 ∧ (c.extend remain).pinned = false := by
          simpa using hc
        have hsum : c.off + remain = 0 := hc'.1
        exact ⟨by omega, by omega, hc'.2⟩
      refine ⟨buf.before, [c], buf.before, [{ tmp with off := (data.drop remain).length }], ?_, ?_,
        List.forall₂_same.mpr fun d _ => Grown.refl d, ?_, ?_, fun d hd i hi => ?_⟩
      · rw [chains, hafter]
      · rw [chains, insertLast, leftBefore, if_neg hc]
        rfl
      · intro d hd
        rw [List.mem_singleton.mp hd]
        exact hoff.2.2
      · intro d hd
        rw [List.mem_singleton.mp hd]
        exact hnew
      · exact hmem d (List.mem_append_left _ hd) i hi

/-! ### `evbuffer_add` -/

/-- Filling the last chain before a new one is added. -/
theorem fill_eq {buf : Evbuffer} {c : EvbufferChain} {data : List Byte} {remain : ℕ}
    (hafter : buf.after = [c]) (hfill : c.misalign + c.off + remain ≤ c.bufferLen)
    (hmore : remain < data.length) :
    (if remain = 0 then some { buf with nextAddr := buf.nextAddr + 1 }
      else (memcpy { buf with nextAddr := buf.nextAddr + 1 } c (c.misalign + c.off)
        (data.take remain)).map fun b => (b.setLast (c.extend remain)).added remain) =
      some (extendLast { buf with nextAddr := buf.nextAddr + 1 } c (data.take remain)) := by
  have htake : (data.take remain).length = remain := by
    rw [List.length_take]
    omega
  split
  case isTrue hzero =>
      subst hzero
      rw [List.take_zero, extendLast, write_nil]
      dsimp only
      rw [hafter]
      rfl
  case isFalse =>
      have := @memcpy_last { buf with nextAddr := buf.nextAddr + 1 } c (data.take remain) hafter
        (by rw [htake]; exact hfill)
      rwa [htake] at this

/-- `evbuffer_add` from the point where there is a last chain. -/
theorem addToLast_eq {P : Platform} {malloc : Bool} {buf : Evbuffer} {c : EvbufferChain}
    {data : List Byte} (h : buf.Sound) (hafter : buf.after = [c]) :
    (∃ buf', buf.addToLast P malloc c data = some (0, buf'.invokeCallbacks) ∧
      buf.Appended data buf') ∨
    (buf.addToLast P malloc c data = some (-1, buf) ∧
      c.bufferLen - c.misalign - c.off < data.length) := by
  have hfits := h.fits c (by rw [chains, hafter]; simp)
  rw [addToLast]
  dsimp only
  by_cases hroom : data.length ≤ c.bufferLen - c.misalign - c.off
  · have hmem := @memcpy_last buf c data hafter (by omega)
    rw [if_pos hroom]
    refine Or.inl ⟨_, ?_, appended_extendLast h hafter (by omega)⟩
    obtain ⟨b, hb, hlast⟩ := Option.map_eq_some_iff.mp hmem
    rw [hb, Option.map_some, hlast]
  · rw [if_neg hroom]
    by_cases halign : (!c.pinned && c.shouldRealign data.length) = true
    · rw [if_pos halign]
      obtain ⟨hunpinned, hsize⟩ : c.pinned = false ∧ data.length ≤ c.bufferLen - c.off := by
        simp [EvbufferChain.shouldRealign] at halign
        exact ⟨halign.1, halign.2.1.1⟩
      refine Or.inl ⟨_, ?_, appended_alignLast h hafter hunpinned (by omega)⟩
      have hfront : 0 + (c.data.cells buf.mem).length ≤ c.bufferLen := by
        rw [length_cells_data]
        omega
      rw [chainAlign, hunpinned, if_neg (by decide), memcpy, if_pos hfront, Option.map_some,
        Option.bind_some]
      dsimp only
      rw [memcpy, if_pos (by dsimp only; omega), Option.map_some, setLast]
      dsimp only
      rw [hafter, extendLast, Nat.zero_add]
      rfl
    · rw [if_neg halign]
      generalize hsize : (if (if c.bufferLen ≤ 4096 / 2 then c.bufferLen * 2 else c.bufferLen) <
        data.length then data.length
        else if c.bufferLen ≤ 4096 / 2 then c.bufferLen * 2 else c.bufferLen) = toAlloc
      have hle : data.length ≤ toAlloc := by
        rw [← hsize]
        split_ifs <;> omega
      cases hnew : evbufferChainNew P malloc buf.nextAddr toAlloc with
      | none => exact Or.inr ⟨rfl, by omega⟩
      | some tmp =>
          have htmp := isNew_of_evbufferChainNew hnew
          have hfill : c.misalign + c.off + (c.bufferLen - c.misalign - c.off) ≤ c.bufferLen := by
            omega
          have hmore : c.bufferLen - c.misalign - c.off < data.length := by omega
          generalize c.bufferLen - c.misalign - c.off = remain at hfill hmore
          refine Or.inl ⟨_, ?_, appended_insertLast h hafter hfill hmore htmp hle⟩
          dsimp only
          rw [fill_eq hafter hfill hmore, Option.bind_some]
          have htake : (data.take remain).length = remain := by
            rw [List.length_take]
            omega
          have hafter' : (extendLast { buf with nextAddr := buf.nextAddr + 1 } c
              (data.take remain)).after = [c.extend remain] := by
            rw [extendLast, htake]
          have hrest : data.drop remain ≠ [] := by
            rw [ne_eq, List.drop_eq_nil_iff]
            omega
          have hlen : (data.drop remain).length ≤ tmp.bufferLen := by
            have := htmp.size_le
            rw [List.length_drop]
            omega
          obtain ⟨b, hb, hins⟩ := Option.bind_eq_some_iff.mp (chainInsert_eq hafter' hrest hlen)
          obtain ⟨b', hb', hcount⟩ := Option.map_eq_some_iff.mp hins
          rw [hb, Option.bind_some, hb', Option.map_some, hcount]
          rfl

/-- The callbacks run after bytes have been appended to a buffer that owed them nothing. -/
theorem Appended.invokeCallbacks {buf buf' : Evbuffer} {data : List Byte}
    (h : buf.Appended data buf') (hwf : buf.Wf) : buf'.invokeCallbacks.Wf := by
  obtain ⟨hadd, hdel⟩ := hwf.cleared
  obtain ⟨hnadd, hndel, hinfos⟩ := h.counted
  have hlen := congrArg List.length h.contents_eq
  rw [List.length_append, hwf.length_contents] at hlen
  have htotal : buf'.totalLen = buf.totalLen + data.length := by
    rw [h.sound.total, ← hlen]
    exact (length_queue _ _).symm
  refine h.sound.invokeCallbacks (hinfos ▸ hwf.reports) ?_
  omega

/-- A first chain, not used yet. -/
theorem sound_first {buf : Evbuffer} (h : buf.Sound) (hnil : buf.before = [] ∧ buf.after = [])
    {c : EvbufferChain} {size : ℕ} (hc : c.IsNew buf.nextAddr size) :
    Sound { buf with after := [c], nextAddr := buf.nextAddr + 1 } := by
  have hchains : chains { buf with after := [c], nextAddr := buf.nextAddr + 1 } = [c] := by
    rw [chains, hnil.1]
    rfl
  refine ⟨fun d hd => ?_, ?_, ?_, fun d hd => ?_, List.forall_mem_nil _,
    fun hne => absurd hnil.1 hne⟩
  · rw [hchains] at hd
    rw [List.mem_singleton.mp hd, hc.misalign_eq, hc.off_eq]
    exact Nat.zero_le _
  · have htotal := h.total
    rw [chains, hnil.1, hnil.2] at htotal
    rw [hchains, bytesIn_cons, hc.off_eq]
    exact htotal
  · rw [hchains]
    exact List.nodup_singleton _
  · rw [hchains] at hd
    rw [List.mem_singleton.mp hd, hc.addr_eq]
    exact Nat.lt_succ_self _

/-- Into the first chain of an empty buffer. -/
theorem Appended.of_first {buf buf' : Evbuffer} {data : List Byte}
    (hnil : buf.before = [] ∧ buf.after = []) {c : EvbufferChain} {size : ℕ}
    (hc : c.IsNew buf.nextAddr size)
    (happ : Appended { buf with after := [c], nextAddr := buf.nextAddr + 1 } data buf') :
    buf.Appended data buf' := by
  have hchains : buf.chains = [] := by rw [chains, hnil.1, hnil.2]; rfl
  have hempty :
      contents { buf with after := [c], nextAddr := buf.nextAddr + 1 } = buf.contents := by
    rw [contents, contents, chains, hchains, hnil.1]
    exact queue_eq_nil fun d hd => by rw [List.mem_singleton.mp hd, hc.off_eq]
  obtain ⟨init, cs, init', ds, hinit, hinit', hgrown, -, hds, -⟩ := happ.kept
  have hunpinned : ∀ d ∈ buf'.chains, d.pinned = false := by
    intro d hd
    rw [hinit'] at hd
    rcases List.mem_append.mp hd with hd | hd
    · obtain ⟨e, he, k, -, rfl⟩ := exists_left_of_mem hgrown hd
      have hmem : e ∈ [c] := by
        have : e ∈ init ++ cs := List.mem_append_left cs he
        rwa [← hinit, chains, hnil.1] at this
      rw [List.mem_singleton.mp hmem]
      change c.pinned = false
      rw [EvbufferChain.pinned, hc.unpinned.1, hc.unpinned.2]
      rfl
    · exact hds d hd
  have hfull : ∀ d ∈ buf'.before, d.off = 0 →
      ∃ e ∈ buf.chains, e.off = 0 ∧ (e ∈ buf.before ∨ e.pinned = true) := by
    intro d hd hoff
    obtain ⟨e, he, -, hor⟩ := happ.full d hd hoff
    rcases hor with hbefore | hpinned
    · have hbefore' : e ∈ buf.before := hbefore
      rw [hnil.1] at hbefore'
      cases hbefore'
    · have he' : e ∈ [c] := by
        rwa [chains, hnil.1] at he
      rw [List.mem_singleton.mp he', EvbufferChain.pinned, hc.unpinned.1, hc.unpinned.2] at hpinned
      cases hpinned
  refine ⟨happ.sound, happ.compact, happ.contents_eq.trans (by rw [hempty]), happ.counted,
    happ.frame, hfull, [], [], [], buf'.chains, hchains, rfl, List.Forall₂.nil,
    List.forall_mem_nil _, hunpinned, List.forall_mem_nil _⟩

/-- **Appending**: on a compact buffer whose end is not frozen `evbuffer_add` appends all
bytes, or it returns `-1` and leaves the buffer as it is. -/
theorem evbufferAdd_eq {P : Platform} {malloc : ℕ → Bool} {buf : Evbuffer} (h : buf.Sound)
    (hcompact : buf.Compact) (data : List Byte) :
    (∃ buf', buf.evbufferAdd P malloc data = some (0, buf'.invokeCallbacks) ∧
      buf.Appended data buf') ∨
    buf.evbufferAdd P malloc data = some (-1, buf) := by
  rw [evbufferAdd]
  by_cases hfreeze : buf.freezeEnd = true
  · exact Or.inr (if_pos hfreeze)
  rw [if_neg hfreeze]
  by_cases hover : P.sizeMax - buf.totalLen < data.length
  · exact Or.inr (if_pos hover)
  rw [if_neg hover]
  rcases hcompact.cases h with ⟨hbefore, hafter⟩ | ⟨c, hafter⟩
  · have hlast : buf.chains.getLast? = none := by rw [chains, hbefore, hafter]; rfl
    rw [hlast]
    dsimp only
    cases hnew : evbufferChainNew P (malloc 0) buf.nextAddr data.length with
    | none => exact Or.inr rfl
    | some c =>
        have hc := isNew_of_evbufferChainNew hnew
        have hinsert : chainInsert { buf with nextAddr := buf.nextAddr + 1 } c =
            some { buf with after := [c], nextAddr := buf.nextAddr + 1 } := by
          rw [chainInsert]
          dsimp only
          rw [hafter]
          dsimp only
          rw [if_pos hbefore, hc.off_eq]
          rfl
        dsimp only
        rw [hinsert, Option.bind_some]
        rcases addToLast_eq (sound_first h ⟨hbefore, hafter⟩ hc) rfl with
          ⟨buf', heq, happ⟩ | ⟨-, hlt⟩
        · exact Or.inl ⟨buf', heq, happ.of_first ⟨hbefore, hafter⟩ hc⟩
        · have := hc.size_le
          rw [hc.misalign_eq, hc.off_eq] at hlt
          omega
  · have hlast : buf.chains.getLast? = some c := by
      rw [chains, hafter, List.getLast?_append]
      rfl
    rw [hlast]
    rcases addToLast_eq h hafter with hadd | ⟨hadd, -⟩
    · exact Or.inl hadd
    · exact Or.inr hadd

end Evbuffer

end IocpEcho
