import IocpEcho.Append

/-!
# The Writing Half of an Overlapped Bufferevent

What `bufferevent_async` does with its output: `bufferevent_write` appends bytes, also while a
write is under way, `evbuffer_launch_write` hands the first bytes to the kernel, which sends
them one after the other, and `evbuffer_commit_write` drains what has been sent.

A chain that is drained while it is pinned is not freed but left dangling; `pin_release` must
still find it, and free it.

## Main results

* `evbufferLaunchWrite_eq`, `evbufferCommitWrite_eq`: launching and committing a write.
* `WriteSide.Inv.write`, `WriteSide.Inv.launch`, `WriteSide.Inv.send`, `WriteSide.Inv.commit`: what
  each operation does to the bytes, and that it keeps the invariant of the half.
-/

namespace IocpEcho

open Regions

/-! ### The half -/

/-- The output of a bufferevent, with the number of bytes the kernel has sent in the write
under way, all bytes it has sent, and all bytes the server has appended. -/
structure WriteSide where
  eo : EvbufferOverlapped
  ok : Bool
  sent : ℕ
  wire : List Byte
  appended : List Byte

namespace WriteSide

/-- An output on which nothing has happened yet. -/
def new (mem : ℕ → ℕ → Byte) : WriteSide :=
  ⟨.new mem, true, 0, [], []⟩

/-- The kernel sends the byte in the next cell of the vectors. -/
def send (s : WriteSide) : Option WriteSide :=
  (cell s.eo.buffers s.sent).map fun p =>
    { s with sent := s.sent + 1, wire := s.wire ++ [s.eo.buffer.mem p.1 p.2] }

/-- `bufferevent_write`. -/
def write (P : Platform) (malloc : ℕ → Bool) (data : List Byte) (s : WriteSide) :
    Option WriteSide :=
  (s.eo.buffer.evbufferAdd P malloc data).map fun (r, buf) =>
    { s with
      eo := { s.eo with buffer := buf }
      appended := if r = 0 then s.appended ++ data else s.appended }

end WriteSide

/-! ### Between writes and while writing -/

/-- A vector of a write is the beginning of the data of a chain. -/
structure IsDataVec (c : EvbufferChain) (b : Region ℕ) : Prop where
  block : b.block = c.addr
  start : b.start = c.misalign
  le : b.len ≤ c.off

/-- What holds of an evbuffer that only writes. Only a single, unpinned chain can be empty. -/
structure EvbufferOverlapped.WritesOnly (eo : EvbufferOverlapped) : Prop where
  wf : eo.buffer.Wf
  compact : eo.buffer.Compact
  thawed : eo.buffer.freezeEnd = false
  undangled : eo.buffer.dangling = []
  noRead : eo.readInProgress = false
  unpinned : ∀ c ∈ eo.buffer.chains, c.memPinnedR = false
  full : ∀ c ∈ eo.buffer.chains, c.off = 0 → c ∉ eo.buffer.before ∧ c.pinned = false

/-- No write is under way. -/
structure EvbufferOverlapped.WriteIdle (eo : EvbufferOverlapped) : Prop where
  inProgress : eo.writeInProgress = false
  freezeStart : eo.buffer.freezeStart = false
  refcnt : eo.buffer.refcnt = 1
  unpinned : ∀ c ∈ eo.buffer.chains, c.pinned = false

/-- A write is under way from the chains `t`, which are the first ones. -/
structure EvbufferOverlapped.Writing (eo : EvbufferOverlapped)
    (t rest : List EvbufferChain) : Prop where
  inProgress : eo.writeInProgress = true
  freezeStart : eo.buffer.freezeStart = true
  refcnt : eo.buffer.refcnt = 2
  split : eo.buffer.chains = t ++ rest
  ne_nil : t ≠ []
  pinned : ∀ c ∈ t, c.memPinnedW = true
  unpinned : ∀ c ∈ rest, c.pinned = false
  first : eo.firstPinned = t.head?.map EvbufferChain.addr
  vecs : List.Forall₂ IsDataVec t eo.buffers
  slices_eq : slices eo.buffer.mem eo.buffers = eo.buffer.contents.take (size eo.buffers)
  some : 0 < size eo.buffers

/-! ### The vectors of a write -/

/-- The vectors of a write hold no more than their chains. -/
theorem size_le_bytesIn {cs : List EvbufferChain} {bs : List (Region ℕ)}
    (h : List.Forall₂ IsDataVec cs bs) : size bs ≤ bytesIn cs := by
  induction h with
  | nil => exact Nat.le_refl _
  | cons hvec _ ih =>
      have := hvec.le
      rw [size_cons, bytesIn_cons]
      omega

/-- **One vector for each chain**: the loop of `evbuffer_launch_write` pins the first chains,
and the vectors are the first bytes of the queue. -/
theorem pinData_eq {mem : ℕ → ℕ → Byte} {cs : List EvbufferChain} {n atMost : ℕ}
    (h : ∀ c ∈ cs, c.memPinnedW = false) :
    ∃ t rest bs, cs = t ++ rest ∧
      EvbufferOverlapped.pinData cs n atMost =
        some ((t.map fun c => c.mark true .memPinnedW) ++ rest, bs) ∧
      (0 < n → cs ≠ [] → t ≠ []) ∧ List.Forall₂ IsDataVec t bs ∧
      size bs ≤ atMost ∧ slices mem bs = (queue mem cs).take (size bs) ∧
      (0 < n → 0 < atMost → (∃ c ∈ cs.head?, c.off ≠ 0) → 0 < size bs) := by
  induction cs generalizing n atMost with
  | nil =>
      cases n <;> exact ⟨[], [], [], rfl, rfl, fun _ h => absurd rfl h, .nil, Nat.zero_le _, rfl,
        fun _ _ ⟨_, hc, _⟩ => absurd hc (Option.not_mem_none _)⟩
  | cons c cs ih =>
      cases n with
      | zero =>
          exact ⟨[], c :: cs, [], rfl, rfl, fun h => absurd h (Nat.lt_irrefl 0), .nil,
            Nat.zero_le _, rfl, fun h => absurd h (Nat.lt_irrefl 0)⟩
      | succ n =>
          rw [EvbufferOverlapped.pinData, h c List.mem_cons_self, if_neg (by decide)]
          by_cases hlt : c.off < atMost
          · obtain ⟨t, rest, bs, rfl, heq, -, hvecs, hsize, hslices, -⟩ :=
              @ih n (atMost - c.off) fun d hd => h d (List.mem_cons_of_mem c hd)
            rw [if_pos hlt, heq]
            refine ⟨c :: t, rest, c.data :: bs, rfl, rfl, fun _ _ => List.cons_ne_nil _ _,
              .cons ⟨rfl, rfl, Nat.le_refl _⟩ hvecs, ?_, ?_, ?_⟩
            · rw [size_cons]
              change c.off + size bs ≤ atMost
              omega
            · have hlen : (c.data.cells mem).length = c.data.len := length_cells mem c.data
              rw [slices_cons, hslices, queue_cons, size_cons, ← hlen, List.take_length_add_append]
            · rintro - - ⟨d, hd, hoff⟩
              obtain rfl : c = d := Option.some.inj hd
              rw [size_cons]
              change 0 < c.off + size bs
              omega
          · rw [if_neg hlt]
            have hle : atMost ≤ c.off := Nat.le_of_not_lt hlt
            refine ⟨[c], cs, [⟨c.addr, c.misalign, atMost⟩], rfl, rfl,
              fun _ _ => List.cons_ne_nil _ _, .cons ⟨rfl, rfl, hle⟩ .nil, ?_, ?_, ?_⟩
            · rw [size_cons, size_nil]
              exact Nat.le_refl _
            · have htake : (c.data.cells mem).take atMost = slice (mem c.addr) c.misalign atMost :=
                take_slice _ _ hle
              rw [slices_cons, slices_nil, size_cons, size_nil, queue_cons,
                List.take_append_of_le_length (by rw [length_cells_data]; exact hle), Nat.add_zero,
                htake, List.append_nil]
              rfl
            · rintro - hpos -
              rw [size_cons, size_nil]
              exact hpos

namespace EvbufferOverlapped

/-! ### Releasing -/

/-- Releasing the chains of a write: only flags change, no chain stays pinned, and those that
are dangling are freed. -/
theorem pinRelease_writing {eo : EvbufferOverlapped} {t rest : List EvbufferChain}
    (hlinked : eo.buffer.linked = t ++ rest) (hne : t ≠ [])
    (ht : ∀ c ∈ t, c.memPinnedW = true ∧ c.memPinnedR = false)
    (hrest : ∀ c ∈ rest, c.pinned = false)
    (hfirst : eo.firstPinned = t.head?.map EvbufferChain.addr)
    (hlen : eo.buffers.length = t.length)
    (hnodup : (eo.buffer.linked.map EvbufferChain.addr).Nodup) :
    ∃ b a, eo.pinRelease .memPinnedW =
        some { eo with buffer := { eo.buffer with dangling := [], before := b, after := a } } ∧
      b.map EvbufferChain.unmarked = eo.buffer.before.map EvbufferChain.unmarked ∧
      a.map EvbufferChain.unmarked = eo.buffer.after.map EvbufferChain.unmarked ∧
      ∀ c ∈ b ++ a, c.pinned = false := by
  have hfree : ∀ c ∈ eo.buffer.linked, (c.mark false .memPinnedW).pinned = false := by
    intro c hc
    rw [hlinked] at hc
    have hR : c.memPinnedR = false := by
      rcases List.mem_append.mp hc with hc | hc
      · exact (ht c hc).2
      · exact not_has_of_not_pinned (hrest c hc) .memPinnedR
    rw [EvbufferChain.pinned, EvbufferChain.mark, hR]
    rfl
  have hrelease := @pinRelease_eq eo .memPinnedW [] t rest
    (hlinked.trans (List.nil_append _).symm) hne (List.forall_mem_nil _) (fun c hc => (ht c hc).1)
    (fun c hc => not_has_of_not_pinned (hrest c hc) .memPinnedW) hfirst hlen hnodup
  have hdangling : (eo.buffer.dangling.map fun c => c.mark false .memPinnedW).filter
      EvbufferChain.pinned = [] := by
    rw [List.filter_eq_nil_iff]
    intro c hc
    obtain ⟨d, hd, rfl⟩ := List.mem_map.mp hc
    rw [hfree d (List.mem_append_left _ hd)]
    decide
  rw [relink_map, hdangling] at hrelease
  refine ⟨_, _, hrelease, map_unmarked_mark _ _ _, map_unmarked_mark _ _ _, fun c hc => ?_⟩
  rw [← List.map_append] at hc
  obtain ⟨d, hd, rfl⟩ := List.mem_map.mp hc
  exact hfree d (List.mem_append_right _ hd)

/-! ### Launching -/

/-- Pinning the first chains of a buffer changes only flags. -/
theorem unmarked_of_pinned {buf : Evbuffer} {t rest : List EvbufferChain}
    (hsplit : buf.chains = t ++ rest) (flag : PinFlag) :
    (((t.map fun c => c.mark true flag) ++ rest).take buf.before.length).map
        EvbufferChain.unmarked = buf.before.map EvbufferChain.unmarked ∧
    (((t.map fun c => c.mark true flag) ++ rest).drop buf.before.length).map
        EvbufferChain.unmarked = buf.after.map EvbufferChain.unmarked := by
  have hmap : ((t.map fun c => c.mark true flag) ++ rest).map EvbufferChain.unmarked =
      buf.before.map EvbufferChain.unmarked ++ buf.after.map EvbufferChain.unmarked := by
    rw [List.map_append, map_unmarked_mark, ← List.map_append, ← hsplit, ← List.map_append]
    rfl
  have hlen : (buf.before.map EvbufferChain.unmarked).length = buf.before.length :=
    List.length_map _
  rw [List.map_take, List.map_drop, hmap, List.take_left' hlen, List.drop_left' hlen]
  exact ⟨rfl, rfl⟩

/-- The buffer of a write once its chains are pinned and the reference is taken. -/
def pinnedToWrite (eo : EvbufferOverlapped) (cs : List EvbufferChain) (bs : List (Region ℕ)) :
    EvbufferOverlapped :=
  { eo with
    buffer := Evbuffer.incref { eo.buffer with
      before := cs.take eo.buffer.before.length
      after := cs.drop eo.buffer.before.length
      freezeStart := true }
    firstPinned := eo.buffer.chains.head?.map EvbufferChain.addr
    buffers := bs }

/-- When there are bytes, no chain is empty. -/
theorem WritesOnly.off_ne_zero {eo : EvbufferOverlapped} (h : eo.WritesOnly)
    (hpos : 0 < eo.buffer.totalLen) : ∀ c ∈ eo.buffer.chains, c.off ≠ 0 := by
  intro c hc hoff
  have hbefore := (h.full c hc hoff).1
  rcases List.mem_append.mp hc with hc | hc
  · exact hbefore hc
  rcases h.compact.cases h.wf.toSound with ⟨-, hnil⟩ | ⟨d, hd⟩
  · rw [hnil] at hc
    cases hc
  · rw [hd] at hc
    obtain rfl := List.mem_singleton.mp hc
    by_cases hnil : eo.buffer.before = []
    · have htotal := h.wf.total
      rw [Evbuffer.chains, hnil, hd, List.nil_append, bytesIn_cons, hoff, bytesIn_nil] at htotal
      omega
    · obtain ⟨e, he, hne⟩ := h.wf.leading hnil
      rw [hd] at he
      obtain rfl : c = e := Option.some.inj he
      exact hne hoff

/-- **Launching**: `evbuffer_launch_write` on an idle buffer with data does not fail an
assertion. It leaves the bytes, and either a write of the first of them is under way, or the
buffer is as idle as before. -/
theorem evbufferLaunchWrite_eq {wsaSend : Bool} {n : ℕ} {eo : EvbufferOverlapped}
    (h : eo.WritesOnly) (hidle : eo.WriteIdle) (hpos : 0 < eo.buffer.totalLen) (hn0 : 0 < n)
    (hn : n ≤ eo.buffer.totalLen) :
    ∃ r eo', eo.evbufferLaunchWrite wsaSend n = some (r, eo') ∧ eo'.WritesOnly ∧
      eo'.buffer.contents = eo.buffer.contents ∧
      ((r = 0 ∧ size eo'.buffers ≤ n ∧ ∃ t rest, eo'.Writing t rest) ∨
        (r = -1 ∧ eo'.WriteIdle)) := by
  have hatMost : (if (n : ℤ) < 0 ∨ (eo.buffer.totalLen : ℤ) < n then eo.buffer.totalLen
      else (n : ℤ).toNat) = n := by
    rw [if_neg (by omega), Int.toNat_natCast]
  have hslots : 0 < maxWsabufs := by decide
  have hchains : eo.buffer.chains ≠ [] := by
    intro hnil
    have := h.wf.total
    rw [hnil, bytesIn_nil] at this
    omega
  have hW : ∀ c ∈ eo.buffer.chains, c.memPinnedW = false := fun c hc =>
    not_has_of_not_pinned (hidle.unpinned c hc) .memPinnedW
  obtain ⟨t, rest, bs, hsplit, hpin, hne, hvecs, hsize, hslices, hsome⟩ :=
    @pinData_eq eo.buffer.mem eo.buffer.chains maxWsabufs n hW
  have hne := hne hslots hchains
  have hoffs := h.off_ne_zero hpos
  have hsome : 0 < size bs := by
    refine hsome hslots hn0 ?_
    obtain ⟨c, cs, hcs⟩ := List.exists_cons_of_ne_nil hchains
    exact ⟨c, by rw [hcs]; rfl, hoffs c (by rw [hcs]; simp)⟩
  have hpinned : ∀ c ∈ t.map fun c => c.mark true .memPinnedW,
      c.memPinnedW = true ∧ c.memPinnedR = false := by
    intro c hc
    obtain ⟨d, hd, rfl⟩ := List.mem_map.mp hc
    exact ⟨rfl, h.unpinned d (hsplit ▸ List.mem_append_left _ hd)⟩
  have hrest : ∀ c ∈ rest, c.pinned = false := fun c hc =>
    hidle.unpinned c (hsplit ▸ List.mem_append_right _ hc)
  obtain ⟨hbefore, hafter⟩ := @unmarked_of_pinned eo.buffer t rest hsplit .memPinnedW
  -- the list of chains once they are pinned
  generalize hcut : (t.map fun c => c.mark true .memPinnedW) ++ rest = cs at hpin hbefore hafter
  have hcs : cs.take eo.buffer.before.length ++ cs.drop eo.buffer.before.length =
      (t.map fun c => c.mark true .memPinnedW) ++ rest := by
    rw [List.take_append_drop, hcut]
  have hcompact : (cs.drop eo.buffer.before.length).length ≤ 1 := by
    have hlen := congrArg List.length hafter
    rw [List.length_map, List.length_map] at hlen
    rw [hlen]
    exact h.compact
  have hR : ∀ c ∈ cs.take eo.buffer.before.length ++ cs.drop eo.buffer.before.length,
      c.memPinnedR = false := by
    intro c hc
    rw [hcs] at hc
    rcases List.mem_append.mp hc with hc | hc
    · exact (hpinned c hc).2
    · exact not_has_of_not_pinned (hrest c hc) .memPinnedR
  have hfirst : eo.buffer.chains.head?.map EvbufferChain.addr =
      (t.map fun c => c.mark true .memPinnedW).head?.map EvbufferChain.addr := by
    obtain ⟨c, t, rfl⟩ := List.exists_cons_of_ne_nil hne
    rw [hsplit]
    rfl
  have hlen : bs.length = (t.map fun c => c.mark true .memPinnedW).length := by
    rw [List.length_map]
    exact hvecs.length_eq.symm
  have hsound : (eo.pinnedToWrite cs bs).buffer.Sound :=
    h.wf.toSound.of_unmarked hbefore hafter rfl rfl
  have hmarked : (eo.pinnedToWrite cs bs).buffer.chains.map EvbufferChain.unmarked =
      eo.buffer.chains.map EvbufferChain.unmarked := by
    rw [Evbuffer.chains, Evbuffer.chains, List.map_append, List.map_append]
    exact congrArg₂ _ hbefore hafter
  have hoffs' : ∀ c ∈ (eo.pinnedToWrite cs bs).buffer.chains, c.off ≠ 0 := by
    intro c hc
    obtain ⟨d, hd, heq⟩ := exists_of_unmarked hmarked hc
    rw [← (EvbufferChain.eq_of_unmarked heq).2.2.2]
    exact hoffs d hd
  have hcontents : (eo.pinnedToWrite cs bs).buffer.contents = eo.buffer.contents :=
    contents_unmarked rfl hbefore hafter
  have hcond : ¬ (eo.buffer.freezeStart || eo.writeInProgress) = true := by
    rw [hidle.freezeStart, hidle.inProgress]
    decide
  rw [evbufferLaunchWrite, if_neg (by rw [h.noRead]; decide), if_neg hcond,
    if_neg (Nat.ne_of_gt hpos)]
  dsimp only
  rw [hatMost]
  change ∃ r eo', (pinData eo.buffer.chains maxWsabufs n).bind _ = _ ∧ _
  rw [hpin, Option.bind_some]
  cases wsaSend with
  | true =>
      refine ⟨0, { eo.pinnedToWrite cs bs with writeInProgress := true }, rfl,
        ⟨⟨hsound, h.wf.cleared, h.wf.reports⟩, hcompact, h.thawed, h.undangled, h.noRead, hR,
          fun c hc hoff => absurd hoff (hoffs' c hc)⟩,
        hcontents, Or.inl ⟨rfl, hsize, _, rest, rfl, rfl, congrArg Nat.succ hidle.refcnt, hcs,
          by simpa using hne, fun c hc => (hpinned c hc).1, hrest, hfirst, ?_, ?_, hsome⟩⟩
      · refine List.forall₂_map_left_iff.mpr (hvecs.imp fun c b hv => ?_)
        exact ⟨hv.block, hv.start, hv.le⟩
      · exact hslices.trans (congrArg (List.take (size bs)) hcontents.symm)
  | false =>
      have hlinked : (eo.pinnedToWrite cs bs).buffer.linked =
          (t.map fun c => c.mark true .memPinnedW) ++ rest := by
        change eo.buffer.dangling ++ _ = _
        rw [h.undangled]
        exact hcs
      have hnodup : ((eo.pinnedToWrite cs bs).buffer.linked.map EvbufferChain.addr).Nodup := by
        rw [hlinked, ← hcs]
        exact hsound.nodup
      obtain ⟨b, a, hrelease, hb, ha, hfree⟩ :=
        pinRelease_writing hlinked (by simpa using hne) hpinned hrest hfirst hlen hnodup
      have hb' := hb.trans hbefore
      have ha' := ha.trans hafter
      have hlast : a.length ≤ 1 := by
        have hlen' := congrArg List.length ha'
        rw [List.length_map, List.length_map] at hlen'
        exact hlen'.trans_le h.compact
      have hoffs'' : ∀ c ∈ b ++ a, c.off ≠ 0 := by
        intro c hc
        have hsame : (b ++ a).map EvbufferChain.unmarked =
            (eo.buffer.before ++ eo.buffer.after).map EvbufferChain.unmarked := by
          rw [List.map_append, List.map_append, hb', ha']
        obtain ⟨d, hd, heq⟩ := exists_of_unmarked hsame hc
        rw [← (EvbufferChain.eq_of_unmarked heq).2.2.2]
        exact hoffs d hd
      change ∃ r eo', ((eo.pinnedToWrite cs bs).pinRelease .memPinnedW).bind _ = _ ∧ _
      rw [hrelease, Option.bind_some,
        Evbuffer.decrefAndUnlock_of_two (congrArg Nat.succ hidle.refcnt)]
      exact ⟨-1, _, rfl, ⟨⟨h.wf.toSound.of_unmarked hb' ha' rfl rfl, h.wf.cleared, h.wf.reports⟩,
        hlast, h.thawed, rfl, h.noRead, fun c hc => not_has_of_not_pinned (hfree c hc) .memPinnedR,
        fun c hc hoff => absurd hoff (hoffs'' c hc)⟩,
        contents_unmarked rfl hb' ha', Or.inr ⟨rfl, hidle.inProgress, rfl, rfl, hfree⟩⟩

/-! ### Committing -/

/-- Draining frees chains at the front, and moves the data of the first one left. -/
theorem split_of_drains {before after us b a : List EvbufferChain} {n : ℕ}
    (h : Drains before after n us b a) :
    ∃ cs k, before ++ after = us ++ cs ∧ b ++ a = cs.modifyHead (fun p => p.advance k) ∧
      a.length ≤ after.length := by
  cases h with
  | @inBefore us rest p k hbefore _ =>
      refine ⟨p :: rest ++ after, k, ?_, rfl, Nat.le_refl _⟩
      rw [hbefore, List.append_assoc]
  | @inAfter vs cs k hafter _ _ =>
      refine ⟨cs, k, ?_, rfl, ?_⟩
      · rw [hafter, List.append_assoc]
      · rw [List.length_modifyHead, hafter, List.length_append]
        omega

/-- Draining empties no chain in front of `*last_with_datap` without freeing it. -/
theorem off_ne_zero_of_drains {before after us b a : List EvbufferChain} {n : ℕ}
    (h : Drains before after n us b a) (hbefore : ∀ c ∈ before, c.off ≠ 0) :
    ∀ c ∈ b, c.off ≠ 0 := by
  intro c hc
  cases h with
  | @inBefore us rest p k hsplit hlt =>
      rcases List.mem_cons.mp hc with rfl | hc
      · change p.off - k ≠ 0
        omega
      · exact hbefore c (by rw [hsplit]; simp [hc])
  | inAfter _ _ _ => cases hc

/-- The chains of a write are still linked one after the other when some of them have been
drained: those freed are dangling. -/
theorem linked_of_drains {buf : Evbuffer} {t rest us b a : List EvbufferChain} {n : ℕ}
    (hsplit : buf.chains = t ++ rest) (hundangled : buf.dangling = [])
    (ht : ∀ c ∈ t, c.memPinnedW = true ∧ c.memPinnedR = false)
    (hrest : ∀ c ∈ rest, c.pinned = false) (hdrains : Drains buf.before buf.after n us b a) :
    ∃ t' rest', (buf.drained n us b a).linked = t' ++ rest' ∧
      t'.map EvbufferChain.addr = t.map EvbufferChain.addr ∧
      (∀ c ∈ t', c.memPinnedW = true ∧ c.memPinnedR = false) ∧ ∀ c ∈ rest', c.pinned = false := by
  have hpinned : ∀ c ∈ t, c.pinned = true := fun c hc => by
    rw [EvbufferChain.pinned, (ht c hc).1, Bool.or_true]
  have hdangle : ∀ us' ⊆ t, ∀ c ∈ us'.map fun c : EvbufferChain => { c with dangling := true },
      c.memPinnedW = true ∧ c.memPinnedR = false := by
    intro us' hsub c hc
    obtain ⟨d, hd, rfl⟩ := List.mem_map.mp hc
    exact ht d (hsub hd)
  have hadvance : ∀ cs : List EvbufferChain, ∀ k, (∀ c ∈ cs, c.pinned = false) →
      ∀ c ∈ cs.modifyHead fun p => p.advance k, c.pinned = false := by
    intro cs k hcs c hc
    cases cs with
    | nil => cases hc
    | cons p cs =>
        rcases List.mem_cons.mp hc with rfl | hc
        · exact hcs p List.mem_cons_self
        · exact hcs c (List.mem_cons_of_mem p hc)
  obtain ⟨cs, k, hus, hba, -⟩ := split_of_drains hdrains
  have hlinked : (buf.drained n us b a).linked =
      ((us.filter EvbufferChain.pinned).map fun c => { c with dangling := true }) ++
        cs.modifyHead fun p => p.advance k := by
    rw [← hba, Evbuffer.drained, invokeCallbacks_eq]
    change (buf.dangling ++ _) ++ _ = _
    rw [hundangled]
    rfl
  have hcut : t ++ rest = us ++ cs := hsplit.symm.trans hus
  rcases List.append_eq_append_iff.mp hcut with ⟨vs, rfl, hvs⟩ | ⟨t₂, hsp, rfl⟩
  · -- all chains of the write are gone
    have hfreed : ∀ c ∈ vs, c.pinned = false := fun c hc =>
      hrest c (hvs ▸ List.mem_append_left cs hc)
    have hcs : ∀ c ∈ cs, c.pinned = false := fun c hc =>
      hrest c (hvs ▸ List.mem_append_right vs hc)
    have hfilter : (t ++ vs).filter EvbufferChain.pinned = t := by
      rw [List.filter_append, List.filter_eq_self.mpr hpinned,
        List.filter_eq_nil_iff.mpr fun c hc => by rw [hfreed c hc]; decide, List.append_nil]
    rw [hfilter] at hlinked
    exact ⟨_, _, hlinked, by simp, hdangle t (List.Subset.refl t), hadvance cs k hcs⟩
  · have hfilter : us.filter EvbufferChain.pinned = us :=
      List.filter_eq_self.mpr fun c hc => hpinned c (hsp ▸ List.mem_append_left t₂ hc)
    rw [hfilter] at hlinked
    have hsub : us ⊆ t := hsp ▸ List.subset_append_left us t₂
    cases t₂ with
    | nil =>
        rw [List.append_nil] at hsp
        rw [List.nil_append] at hlinked
        refine ⟨_, _, hlinked, by simp [hsp], hdangle us hsub, hadvance rest k hrest⟩
    | cons p t₂ =>
        refine ⟨(us.map fun c => { c with dangling := true }) ++ p.advance k :: t₂, rest, ?_, ?_,
          fun c hc => ?_, hrest⟩
        · rw [hlinked, List.cons_append, List.modifyHead_cons, List.append_assoc, List.cons_append]
        · rw [hsp]
          simp [EvbufferChain.advance]
        · rcases List.mem_append.mp hc with hc | hc
          · exact hdangle us hsub c hc
          · rcases List.mem_cons.mp hc with rfl | hc
            · exact ht p (by simp [hsp])
            · exact ht c (by simp [hsp, hc])

/-- The chains of a write, dangling or not, have different addresses. -/
theorem nodup_linked_of_drains {buf : Evbuffer} {us b a : List EvbufferChain} {n : ℕ}
    (h : buf.Sound) (hundangled : buf.dangling = [])
    (hdrains : Drains buf.before buf.after n us b a) :
    ((buf.drained n us b a).linked.map EvbufferChain.addr).Nodup := by
  have hnodup : ((buf.before ++ buf.after).map EvbufferChain.addr).Nodup := h.nodup
  rw [hdrains.map_addr] at hnodup
  rw [Evbuffer.drained, invokeCallbacks_eq]
  change (((buf.dangling ++ _) ++ (b ++ a)).map EvbufferChain.addr).Nodup
  rw [hundangled, List.nil_append, List.map_append, List.map_map]
  exact hnodup.sublist (List.Sublist.append_right (List.filter_sublist.map _) _)

/-- **Committing**: `evbuffer_commit_write` of no more bytes than are in the vectors does not
fail an assertion. It removes them from the queue; no chain stays pinned or dangling. -/
theorem evbufferCommitWrite_eq {n : ℕ} {eo : EvbufferOverlapped} {t rest : List EvbufferChain}
    (h : eo.WritesOnly) (hw : eo.Writing t rest) (hn : n ≤ size eo.buffers) :
    ∃ eo', eo.evbufferCommitWrite n = some eo' ∧ eo'.WritesOnly ∧ eo'.WriteIdle ∧
      eo'.buffer.contents = eo.buffer.contents.drop n := by
  have hpins : PinsTrail eo.buffer.chains := by
    rw [← List.append_nil eo.buffer.chains]
    exact pinsTrail_append h.unpinned (List.forall_mem_nil _)
  have ht : ∀ c ∈ t, c.memPinnedW = true ∧ c.memPinnedR = false := fun c hc =>
    ⟨hw.pinned c hc, h.unpinned c (hw.split ▸ List.mem_append_left _ hc)⟩
  have hle : n ≤ eo.buffer.totalLen := by
    have := size_le_bytesIn hw.vecs
    rw [h.wf.total, hw.split, bytesIn_append]
    omega
  have hthawed : Evbuffer.Wf { eo.buffer with freezeStart := false } :=
    ⟨⟨h.wf.fits, h.wf.total, h.wf.nodup, h.wf.fresh, h.wf.trailing, h.wf.leading⟩, h.wf.cleared,
      h.wf.reports⟩
  obtain ⟨buf', hdrain, hdrained⟩ := evbufferDrain_eq hthawed.toSound rfl hpins n
  rw [Nat.min_eq_left hle] at hdrained
  obtain ⟨hmem, hstart, hend, hrefcnt⟩ := hdrained.frame
  have hwf := hdrained.wf hthawed
  have hcontents : buf'.contents = eo.buffer.contents.drop n := hdrained.contents_eq
  -- what is linked, and that no other flags have changed
  obtain ⟨t', rest', hlinked, haddr, ht', hrest', hnodup, hcompact, hfull⟩ :
      ∃ t' rest', buf'.linked = t' ++ rest' ∧
        t'.map EvbufferChain.addr = t.map EvbufferChain.addr ∧
        (∀ c ∈ t', c.memPinnedW = true ∧ c.memPinnedR = false) ∧ (∀ c ∈ rest', c.pinned = false) ∧
        (buf'.linked.map EvbufferChain.addr).Nodup ∧ buf'.Compact ∧
        ∀ c ∈ buf'.before, c.off ≠ 0 := by
    have hfull : ∀ c ∈ eo.buffer.before, c.off ≠ 0 := fun c hc hoff =>
      (h.full c (List.mem_append_left _ hc) hoff).1 hc
    rcases hdrained with ⟨-, rfl⟩ | ⟨-, us, b, a, hdrains, -, rfl⟩
    · refine ⟨t, rest, ?_, rfl, ht, hw.unpinned, ?_, h.compact, hfull⟩
      · change eo.buffer.dangling ++ eo.buffer.chains = _
        rw [h.undangled, List.nil_append, hw.split]
      · change ((eo.buffer.dangling ++ eo.buffer.chains).map EvbufferChain.addr).Nodup
        rw [h.undangled, List.nil_append]
        exact h.wf.nodup
    · obtain ⟨t', rest', hlinked, haddr, ht', hrest'⟩ :=
        @linked_of_drains { eo.buffer with freezeStart := false } t rest us b a n hw.split
          h.undangled ht hw.unpinned hdrains
      obtain ⟨-, -, -, -, hlen⟩ := split_of_drains hdrains
      refine ⟨t', rest', hlinked, haddr, ht', hrest',
        nodup_linked_of_drains hthawed.toSound h.undangled hdrains, ?_, fun c hc => ?_⟩
      · rw [Evbuffer.drained, invokeCallbacks_eq]
        exact hlen.trans h.compact
      · rw [Evbuffer.drained, invokeCallbacks_eq] at hc
        exact off_ne_zero_of_drains hdrains hfull c hc
  have hfirst : eo.firstPinned = t'.head?.map EvbufferChain.addr := by
    rw [hw.first, ← List.head?_map, ← List.head?_map, haddr]
  have hlen : eo.buffers.length = t'.length := by
    have := congrArg List.length haddr
    rw [List.length_map, List.length_map] at this
    rw [this]
    exact hw.vecs.length_eq.symm
  have hne : t' ≠ [] := by
    intro hnil
    rw [hnil, List.map_nil, eq_comm, List.map_eq_nil_iff] at haddr
    exact hw.ne_nil haddr
  obtain ⟨b, a, hrelease, hb, ha, hfree⟩ :=
    @pinRelease_writing { eo with buffer := buf' } t' rest' hlinked hne ht' hrest' hfirst hlen
      hnodup
  have hcond : ¬ (!eo.writeInProgress || eo.readInProgress) = true := by
    rw [hw.inProgress, h.noRead]
    decide
  have hdecref : Evbuffer.decrefAndUnlock { buf' with dangling := [], before := b, after := a } =
      some { buf' with dangling := [], before := b, after := a, refcnt := 1 } :=
    Evbuffer.decrefAndUnlock_of_two (hrefcnt.trans hw.refcnt)
  rw [evbufferCommitWrite, if_neg hcond, hdrain, Option.bind_some, hrelease, Option.bind_some]
  dsimp only
  rw [hdecref]
  refine ⟨_, rfl, ⟨⟨hwf.toSound.of_unmarked hb ha rfl rfl, hwf.cleared, hwf.reports⟩, ?_,
    hend.trans h.thawed, rfl, h.noRead, fun c hc => not_has_of_not_pinned (hfree c hc) .memPinnedR,
    fun c hc hoff => ⟨fun hcb => ?_, hfree c hc⟩⟩, ⟨rfl, hstart, rfl, hfree⟩, ?_⟩
  · have hlen' := congrArg List.length ha
    rw [List.length_map, List.length_map] at hlen'
    exact hlen'.trans_le hcompact
  · obtain ⟨d, hd, heq⟩ := exists_of_unmarked hb hcb
    exact hfull d hd ((EvbufferChain.eq_of_unmarked heq).2.2.2.trans hoff)
  · have hsame : Evbuffer.contents
        { buf' with dangling := [], before := b, after := a, refcnt := 1 } = buf'.contents :=
      contents_unmarked rfl hb ha
    exact hsame.trans hcontents

/-! ### Appending while a write is under way -/

/-- The pinned chains are among those that appending keeps. -/
theorem pinned_of_kept {t rest init cs : List EvbufferChain} (hcut : t ++ rest = init ++ cs)
    (ht : ∀ c ∈ t, c.pinned = true) (hcs : ∀ c ∈ cs, c.pinned = false) :
    ∃ u, init = t ++ u ∧ rest = u ++ cs := by
  rcases List.append_eq_append_iff.mp hcut with ⟨u, hinit, hrest⟩ | ⟨v, hinit, hv⟩
  · exact ⟨u, hinit, hrest⟩
  · cases v with
    | nil => exact ⟨[], by rw [hinit, List.append_nil, List.append_nil], hv.symm⟩
    | cons c v =>
        have hpin := ht c (by rw [hinit]; simp)
        rw [hcs c (by rw [hv]; simp)] at hpin
        cases hpin

/-- Growing the chains of a write leaves its vectors in place. -/
theorem vecs_of_grown {t t' : List EvbufferChain} {bs : List (Region ℕ)}
    (h : List.Forall₂ Grown t t') (hvecs : List.Forall₂ IsDataVec t bs) :
    List.Forall₂ IsDataVec t' bs := by
  induction h generalizing bs with
  | nil => exact hvecs
  | cons hg _ ih =>
      obtain ⟨k, -, rfl⟩ := hg
      cases hvecs with
      | cons hv hvs =>
          exact List.Forall₂.cons ⟨hv.block, hv.start, Nat.le_add_right_of_le hv.le⟩ (ih hvs)

/-- Appending leaves the bytes of a write where they are. -/
theorem Writing.append {eo : EvbufferOverlapped} {buf' : Evbuffer} {data : List Byte}
    {t rest : List EvbufferChain} (hwo : eo.WritesOnly) (h : eo.Writing t rest)
    (happ : eo.buffer.Appended data buf') :
    ∃ t' rest', Writing { eo with buffer := buf'.invokeCallbacks } t' rest' := by
  obtain ⟨init, cs, init', ds, hinit, hinit', hgrown, hcs, hds, hmem⟩ := happ.kept
  have hpinned : ∀ c ∈ t, c.pinned = true := fun c hc => by
    rw [EvbufferChain.pinned, h.pinned c hc, Bool.or_true]
  obtain ⟨u, rfl, rfl⟩ := pinned_of_kept (h.split.symm.trans hinit) hpinned hcs
  -- the pinned chains afterwards
  have htake : List.Forall₂ Grown t (init'.take t.length) :=
    (List.forall₂_take_append init' t u hgrown.flip).flip
  have hdrop : List.Forall₂ Grown u (init'.drop t.length) :=
    (List.forall₂_drop_append init' t u hgrown.flip).flip
  have haddr := map_addr_of_grown htake
  have hlast : buf'.invokeCallbacks.chains =
      init'.take t.length ++ (init'.drop t.length ++ ds) := by
    rw [invokeCallbacks_eq, ← List.append_assoc, List.take_append_drop, ← hinit']
    rfl
  obtain ⟨hstart, -, hrefcnt, -⟩ := happ.frame
  have hsize : size eo.buffers ≤ eo.buffer.contents.length := by
    have := size_le_bytesIn h.vecs
    rw [hwo.wf.length_contents, hwo.wf.total, h.split, bytesIn_append]
    omega
  refine ⟨init'.take t.length, init'.drop t.length ++ ds, h.inProgress, ?_, ?_, hlast,
    fun hnil => ?_, fun d hd => ?_, fun d hd => ?_, ?_, vecs_of_grown htake h.vecs, ?_, h.some⟩
  · rw [invokeCallbacks_eq]
    exact hstart.trans h.freezeStart
  · rw [invokeCallbacks_eq]
    exact hrefcnt.trans h.refcnt
  · rw [hnil, List.forall₂_nil_right_iff] at htake
    exact h.ne_nil htake
  · obtain ⟨c, hc, k, -, rfl⟩ := exists_left_of_mem htake hd
    exact h.pinned c hc
  · rcases List.mem_append.mp hd with hd | hd
    · obtain ⟨c, hc, k, -, rfl⟩ := exists_left_of_mem hdrop hd
      exact h.unpinned c (List.mem_append_left _ hc)
    · exact hds d hd
  · rw [← List.head?_map, haddr, List.head?_map]
    exact h.first
  · have hsame : slices buf'.mem eo.buffers = slices eo.buffer.mem eo.buffers := by
      refine List.flatMap_congr fun b hb => ?_
      obtain ⟨c, hc, hvec⟩ := exists_left_of_mem h.vecs hb
      have hle := hvec.le
      rw [Region.cells, Region.cells, hvec.block, hvec.start]
      exact slice_congr fun i _ hi => hmem c (List.mem_append_left u hc) i (by omega)
    rw [invokeCallbacks_eq]
    change slices buf'.mem eo.buffers = buf'.contents.take (size eo.buffers)
    rw [hsame, h.slices_eq, happ.contents_eq, List.take_append_of_le_length hsize]

end EvbufferOverlapped

/-! ### The invariant -/

/-- The bytes appended are those sent, followed by those in the buffer that have not been
sent; and the buffer is ready for whatever comes next. -/
structure WriteSide.Inv (s : WriteSide) : Prop where
  writesOnly : s.eo.WritesOnly
  account : s.wire ++ s.eo.buffer.contents.drop s.sent = s.appended
  phase : (s.eo.WriteIdle ∧ s.sent = 0) ∨
    (s.sent ≤ size s.eo.buffers ∧ ∃ t rest, s.eo.Writing t rest)

namespace WriteSide

/-- The invariant holds at the start. -/
theorem inv_new (mem : ℕ → ℕ → Byte) : (new mem).Inv :=
  ⟨⟨wf_new mem, Nat.zero_le 1, rfl, rfl, rfl, List.forall_mem_nil _, List.forall_mem_nil _⟩, rfl,
    Or.inl ⟨⟨rfl, rfl, rfl, List.forall_mem_nil _⟩, rfl⟩⟩

/-- What is being sent is in the buffer. -/
theorem Inv.sent_le {s : WriteSide} (h : s.Inv) : s.sent ≤ s.eo.buffer.contents.length := by
  rcases h.phase with ⟨-, hzero⟩ | ⟨hle, t, rest, hw⟩
  · rw [hzero]
    exact Nat.zero_le _
  · have := size_le_bytesIn hw.vecs
    rw [h.writesOnly.wf.length_contents, h.writesOnly.wf.total, hw.split, bytesIn_append]
    omega

/-- Appending keeps the invariant, also while a write is under way. -/
theorem Inv.append {s : WriteSide} (h : s.Inv) {data : List Byte} {buf' : Evbuffer}
    (happ : s.eo.buffer.Appended data buf') :
    buf'.invokeCallbacks.contents = s.eo.buffer.contents ++ data ∧
      Inv { s with
        eo := { s.eo with buffer := buf'.invokeCallbacks }
        appended := s.appended ++ data } := by
  have hwo := h.writesOnly
  have hwf := happ.invokeCallbacks hwo.wf
  have hcontents : buf'.invokeCallbacks.contents = s.eo.buffer.contents ++ data := by
    rw [invokeCallbacks_eq]
    exact happ.contents_eq
  obtain ⟨hstart, hend, hrefcnt, hdangling⟩ := happ.frame
  obtain ⟨init, cs, init', ds, hinit, hinit', hgrown, hcs, hds, -⟩ := happ.kept
  -- every chain is an old one grown, or it is not pinned
  have hflags : ∀ d ∈ buf'.invokeCallbacks.chains, d.pinned = false ∨
      ∃ c ∈ s.eo.buffer.chains, ∃ k, d = c.extend k := by
    intro d hd
    rw [invokeCallbacks_eq] at hd
    have hd' : d ∈ init' ++ ds := hinit' ▸ hd
    rcases List.mem_append.mp hd' with hd' | hd'
    · obtain ⟨c, hc, k, -, rfl⟩ := exists_left_of_mem hgrown hd'
      exact Or.inr ⟨c, hinit ▸ List.mem_append_left cs hc, k, rfl⟩
    · exact Or.inl (hds d hd')
  refine ⟨hcontents, ⟨hwf, ?_, ?_, ?_, hwo.noRead, fun d hd => ?_,
    fun d hd hoff => ⟨?_, ?_⟩⟩, ?_, ?_⟩
  · rw [invokeCallbacks_eq]
    exact happ.compact
  · rw [invokeCallbacks_eq]
    exact hend.trans hwo.thawed
  · rw [invokeCallbacks_eq]
    exact hdangling.trans hwo.undangled
  · rcases hflags d hd with hfree | ⟨c, hc, k, rfl⟩
    · exact not_has_of_not_pinned hfree .memPinnedR
    · exact hwo.unpinned c hc
  · intro hbefore
    rw [invokeCallbacks_eq] at hbefore
    obtain ⟨c, hc, hzero, hor⟩ := happ.full d hbefore hoff
    obtain ⟨hnot, hunpinned⟩ := hwo.full c hc hzero
    rcases hor with hc' | hpinned
    · exact hnot hc'
    · rw [hunpinned] at hpinned
      cases hpinned
  · rcases hflags d hd with hfree | ⟨c, hc, k, rfl⟩
    · exact hfree
    · have hzero : c.off + k = 0 := hoff
      exact (hwo.full c hc (by omega)).2
  · dsimp only
    rw [hcontents, List.drop_append_of_le_length h.sent_le, ← List.append_assoc, h.account]
  · rcases h.phase with ⟨hidle, hzero⟩ | ⟨hle, t, rest, hw⟩
    · refine Or.inl ⟨⟨hidle.inProgress, ?_, ?_, fun d hd => ?_⟩, hzero⟩
      · rw [invokeCallbacks_eq]
        exact hstart.trans hidle.freezeStart
      · rw [invokeCallbacks_eq]
        exact hrefcnt.trans hidle.refcnt
      · rcases hflags d hd with hfree | ⟨c, hc, k, rfl⟩
        · exact hfree
        · exact hidle.unpinned c hc
    · exact Or.inr ⟨hle, hw.append hwo happ⟩

/-- `bufferevent_write` appends all bytes, or fails and changes nothing. -/
theorem Inv.write {P : Platform} {s : WriteSide} (h : s.Inv) (malloc : ℕ → Bool)
    (data : List Byte) :
    (∃ s', s.write P malloc data = some s' ∧ s'.Inv ∧ s'.ok = s.ok ∧
      s'.eo.writeInProgress = s.eo.writeInProgress ∧ s'.eo.buffers = s.eo.buffers ∧
      s'.eo.buffer.contents = s.eo.buffer.contents ++ data ∧ s'.appended = s.appended ++ data) ∨
    s.write P malloc data = some s := by
  have hwo := h.writesOnly
  rcases @Evbuffer.evbufferAdd_eq P malloc s.eo.buffer hwo.wf.toSound hwo.compact data with
    ⟨buf', hadd, happ⟩ | hadd
  · obtain ⟨hcontents, hinv⟩ := h.append happ
    refine Or.inl ⟨_, ?_, hinv, rfl, rfl, rfl, hcontents, rfl⟩
    rw [WriteSide.write, hadd]
    rfl
  · refine Or.inr ?_
    rw [WriteSide.write, hadd]
    rfl

/-- Launching a write keeps the invariant. -/
theorem Inv.launch {s : WriteSide} (h : s.Inv) (wsaSend : Bool) {n : ℕ}
    (hprogress : s.eo.writeInProgress = false) (hpos : 0 < s.eo.buffer.totalLen) (hn0 : 0 < n)
    (hn : n ≤ s.eo.buffer.totalLen) :
    ∃ r eo', s.eo.evbufferLaunchWrite wsaSend n = some (r, eo') ∧
      Inv { s with eo := eo', ok := r == 0 } ∧
      eo'.buffer.contents = s.eo.buffer.contents ∧
      ((r = 0 ∧ eo'.writeInProgress = true ∧ size eo'.buffers ≤ n) ∨
        (r = -1 ∧ eo'.writeInProgress = false)) := by
  rcases h.phase with ⟨hidle, hzero⟩ | ⟨-, t, rest, hw⟩
  · obtain ⟨r, eo', hlaunch, hwo, hcontents, hcases⟩ :=
      @EvbufferOverlapped.evbufferLaunchWrite_eq wsaSend n s.eo h.writesOnly hidle hpos hn0 hn
    have haccount : s.wire ++ eo'.buffer.contents.drop s.sent = s.appended := by
      rw [hcontents]
      exact h.account
    rcases hcases with ⟨rfl, hsize, t, rest, hw⟩ | ⟨rfl, hidle'⟩
    · exact ⟨0, eo', hlaunch, ⟨hwo, haccount, Or.inr ⟨by rw [hzero]; exact Nat.zero_le _, t, rest,
        hw⟩⟩, hcontents, Or.inl ⟨rfl, hw.inProgress, hsize⟩⟩
    · exact ⟨-1, eo', hlaunch, ⟨hwo, haccount, Or.inl ⟨hidle', hzero⟩⟩, hcontents,
        Or.inr ⟨rfl, hidle'.inProgress⟩⟩
  · rw [hw.inProgress] at hprogress
    cases hprogress

/-- What the kernel reads while a write is under way: the data of pinned chains, which are the
first bytes of the queue. -/
theorem cell_in_data {eo : EvbufferOverlapped} {t rest : List EvbufferChain}
    (hw : eo.Writing t rest) {i : ℕ} {p : ℕ × ℕ} (hcell : cell eo.buffers i = some p) :
    ∃ c ∈ eo.buffer.chains, c.memPinnedW = true ∧ p.1 = c.addr ∧ c.misalign ≤ p.2 ∧
      p.2 < c.misalign + c.off ∧
      eo.buffer.contents[i]? = some (eo.buffer.mem p.1 p.2) := by
  obtain ⟨b, hb, hblock, hlo, hhi⟩ := mem_of_cell hcell
  obtain ⟨c, hc, hvec⟩ := exists_left_of_mem hw.vecs hb
  have hle := hvec.le
  have hstart := hvec.start
  have hget : (slices eo.buffer.mem eo.buffers)[i]? = some (eo.buffer.mem p.1 p.2) :=
    getElem?_slices_of_cell hcell
  rw [hw.slices_eq] at hget
  have hlt : i < size eo.buffers := by
    obtain ⟨hlt, -⟩ := List.getElem?_eq_some_iff.mp hget
    rw [List.length_take] at hlt
    omega
  rw [List.getElem?_take_of_lt hlt] at hget
  exact ⟨c, hw.split ▸ List.mem_append_left _ hc, hw.pinned c hc, hblock.symm.trans hvec.block,
    by omega, by omega, hget⟩

/-- The kernel sends the next byte of the queue. -/
theorem Inv.send {s : WriteSide} (h : s.Inv) (hprogress : s.eo.writeInProgress = true)
    (hmore : s.sent < size s.eo.buffers) :
    ∃ s', s.send = some s' ∧ s'.Inv ∧ s'.ok = s.ok ∧ s'.eo = s.eo := by
  rcases h.phase with ⟨hidle, -⟩ | ⟨-, t, rest, hw⟩
  · rw [hidle.inProgress] at hprogress
    cases hprogress
  obtain ⟨p, hcell⟩ := exists_cell hmore
  have hstep : s.send = some { s with
      sent := s.sent + 1, wire := s.wire ++ [s.eo.buffer.mem p.1 p.2] } := by
    rw [WriteSide.send, hcell]
    rfl
  obtain ⟨-, -, -, -, -, -, hbyte⟩ := cell_in_data hw hcell
  refine ⟨_, hstep, ⟨h.writesOnly, ?_, Or.inr ⟨hmore, t, rest, hw⟩⟩, rfl, rfl⟩
  obtain ⟨hlt, hget⟩ := List.getElem?_eq_some_iff.mp hbyte
  have hdrop := List.drop_eq_getElem_cons hlt
  rw [hget] at hdrop
  dsimp only
  rw [List.append_assoc, List.singleton_append, ← hdrop]
  exact h.account

/-- The completion of a write keeps the invariant. -/
theorem Inv.commit {s : WriteSide} (h : s.Inv) (ok : Bool)
    (hprogress : s.eo.writeInProgress = true) :
    ∃ eo', s.eo.evbufferCommitWrite s.sent = some eo' ∧
      Inv { s with eo := eo', ok := s.ok && ok && s.sent ≠ 0, sent := 0 } ∧
      eo'.writeInProgress = false ∧
      eo'.buffer.contents = s.eo.buffer.contents.drop s.sent := by
  rcases h.phase with ⟨hidle, -⟩ | ⟨hle, t, rest, hw⟩
  · rw [hidle.inProgress] at hprogress
    cases hprogress
  obtain ⟨eo', hcommit, hwo, hidle, hcontents⟩ :=
    EvbufferOverlapped.evbufferCommitWrite_eq h.writesOnly hw hle
  refine ⟨eo', hcommit, ⟨hwo, ?_, Or.inl ⟨hidle, rfl⟩⟩, hidle.inProgress, hcontents⟩
  dsimp only
  rw [hcontents, List.drop_zero]
  exact h.account

end WriteSide

end IocpEcho
