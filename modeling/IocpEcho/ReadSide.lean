import IocpEcho.Vectors

/-!
# The Reading Half of an Overlapped Bufferevent

What `bufferevent_async` does with its input: `evbuffer_launch_read` hands the free space at
the end to the kernel, which writes what arrives into it, byte by byte, at any time until the
completion; `evbuffer_commit_read` makes data of it. `bufferevent_read` may run in between and
drain, even empty, chains that the kernel is writing into.

## Main results

* `evbufferLaunchRead_eq`, `evbufferCommitRead_eq`: launching and committing a read.
* `ReadSide.Inv.launch`, `ReadSide.Inv.arrive`, `ReadSide.Inv.read`, `ReadSide.Inv.commit`: what
  each operation does to the bytes, and that it keeps the invariant of the half.
-/

namespace IocpEcho

open Regions

/-! ### The half -/

/-- The input of a bufferevent, with the bytes the kernel has written in the read under way,
all bytes it has written, and all bytes the server has taken. -/
structure ReadSide where
  eo : EvbufferOverlapped
  ok : Bool
  received : List Byte
  arrived : List Byte
  taken : List Byte

namespace ReadSide

/-- An input on which nothing has happened yet. -/
def new (mem : ℕ → ℕ → Byte) : ReadSide :=
  ⟨.new mem, true, [], [], []⟩

/-- The kernel writes a byte into the next cell of the vectors. -/
def arrive (s : ReadSide) (b : Byte) : Option ReadSide :=
  (cell s.eo.buffers s.received.length).map fun p =>
    { s with
      eo := { s.eo with
        buffer := { s.eo.buffer with mem := write s.eo.buffer.mem p.1 p.2 [b] } }
      received := s.received ++ [b]
      arrived := s.arrived ++ [b] }

/-- `bufferevent_read`. -/
def read (size : ℕ) (s : ReadSide) : Option ReadSide :=
  (s.eo.buffer.evbufferRemove size).map fun r =>
    { s with eo := { s.eo with buffer := r.2.2 }, taken := s.taken ++ r.2.1 }

end ReadSide

/-! ### Between reads and while reading -/

/-- What holds of an evbuffer that only reads. -/
structure EvbufferOverlapped.ReadsOnly (eo : EvbufferOverlapped) : Prop where
  wf : eo.buffer.Wf
  thawed : eo.buffer.freezeStart = false
  undangled : eo.buffer.dangling = []
  noWrite : eo.writeInProgress = false

/-- No read is under way. -/
structure EvbufferOverlapped.ReadIdle (eo : EvbufferOverlapped) : Prop where
  inProgress : eo.readInProgress = false
  freezeEnd : eo.buffer.freezeEnd = false
  refcnt : eo.buffer.refcnt = 1
  unpinned : ∀ c ∈ eo.buffer.chains, c.pinned = false

/-- A read of `m` bytes is under way into the chains `t`; `front` is `*last_with_datap` when
that has no space left. -/
structure EvbufferOverlapped.Reading (eo : EvbufferOverlapped) (m : ℕ)
    (front t : List EvbufferChain) : Prop where
  inProgress : eo.readInProgress = true
  refcnt : eo.buffer.refcnt = 2
  split : eo.buffer.after = front ++ t
  ne_nil : t ≠ []
  short : front.length ≤ 1
  unpinned : ∀ c ∈ eo.buffer.before ++ front, c.pinned = false
  pinned : ∀ c ∈ t, c.memPinnedR = true ∧ c.memPinnedW = false
  first : eo.firstPinned = t.head?.map EvbufferChain.addr
  vecs : List.Forall₂ IsVec t eo.buffers
  tight : spaces t.dropLast < m
  untouched : ∀ c ∈ t.tail, c.misalign = 0
  room : size eo.buffers = m

/-! ### Launching -/

namespace EvbufferOverlapped

/-- Releasing the chains of a read: only flags change, and no chain stays pinned. -/
theorem pinRelease_reading {eo : EvbufferOverlapped} {passed t : List EvbufferChain}
    (hundangled : eo.buffer.dangling = []) (hchains : eo.buffer.chains = passed ++ t)
    (hne : t ≠ []) (hpassed : ∀ c ∈ passed, c.pinned = false)
    (ht : ∀ c ∈ t, c.memPinnedR = true ∧ c.memPinnedW = false)
    (hfirst : eo.firstPinned = t.head?.map EvbufferChain.addr)
    (hlen : eo.buffers.length = t.length)
    (hnodup : (eo.buffer.chains.map EvbufferChain.addr).Nodup) :
    ∃ b a, eo.pinRelease .memPinnedR =
        some { eo with buffer := { eo.buffer with before := b, after := a } } ∧
      b.map EvbufferChain.unmarked = eo.buffer.before.map EvbufferChain.unmarked ∧
      a.map EvbufferChain.unmarked = eo.buffer.after.map EvbufferChain.unmarked ∧
      ∀ c ∈ b ++ a, c.pinned = false := by
  have hlinked : eo.buffer.linked = eo.buffer.chains := by
    rw [Evbuffer.linked, hundangled, List.nil_append]
  have hsplit : eo.buffer.linked = passed ++ (t ++ []) := by
    rw [hlinked, hchains, List.append_nil]
  have hrelease := pinRelease_eq hsplit hne
    (fun c hc => not_has_of_not_pinned (hpassed c hc) .memPinnedR) (fun c hc => (ht c hc).1)
    (List.forall_mem_nil _) hfirst hlen (by rw [hlinked]; exact hnodup)
  have hsame : (eo.buffer.dangling.map fun c => c.mark false .memPinnedR).filter
      EvbufferChain.pinned = eo.buffer.dangling := by
    rw [hundangled]
    rfl
  rw [relink_map, hsame] at hrelease
  refine ⟨_, _, hrelease, map_unmarked_mark _ _ _, map_unmarked_mark _ _ _, fun c hc => ?_⟩
  rw [← List.map_append] at hc
  obtain ⟨d, hd, rfl⟩ := List.mem_map.mp hc
  have hd' : d ∈ passed ++ t := hchains ▸ hd
  rcases List.mem_append.mp hd' with hd' | hd'
  · exact not_has_of_not_pinned (hpassed d hd') .memPinnedW
  · exact (ht d hd').2

/-- Marking the chains of a read leaves what matters for its vectors. -/
theorem reading_of_marked {eo : EvbufferOverlapped} {m : ℕ} {front t : List EvbufferChain}
    (hprogress : eo.readInProgress = true) (hrefcnt : eo.buffer.refcnt = 2)
    (hafter : eo.buffer.after = front ++ t.map fun c => c.mark true .memPinnedR)
    (hfirst : eo.firstPinned =
      (t.map fun c => c.mark true .memPinnedR).head?.map EvbufferChain.addr)
    (hne : t ≠ []) (hshort : front.length ≤ 1)
    (hpassed : ∀ c ∈ eo.buffer.before ++ front, c.pinned = false)
    (ht : ∀ c ∈ t, c.pinned = false) (hvecs : List.Forall₂ IsVec t eo.buffers)
    (htight : spaces t.dropLast < m) (huntouched : ∀ c ∈ t.tail, c.misalign = 0)
    (hroom : size eo.buffers = m) :
    eo.Reading m front (t.map fun c => c.mark true .memPinnedR) := by
  refine ⟨hprogress, hrefcnt, hafter, by simpa using hne, hshort, hpassed, fun c hc => ?_, hfirst,
    List.forall₂_map_left_iff.mpr (hvecs.imp fun c b hv => hv.mark true _), ?_, fun c hc => ?_,
    hroom⟩
  · obtain ⟨d, hd, rfl⟩ := List.mem_map.mp hc
    exact ⟨rfl, not_has_of_not_pinned (ht d hd) .memPinnedW⟩
  · rw [← List.map_dropLast, spaces_map_mark]
    exact htight
  · rw [← List.map_tail] at hc
    obtain ⟨d, hd, rfl⟩ := List.mem_map.mp hc
    rw [EvbufferChain.mark_misalign]
    exact huntouched d hd

/-- The end of `evbuffer_launch_read` on chains that are just right. -/
theorem receive_eq {wsaRecv : Bool} {m : ℕ} {eo : EvbufferOverlapped}
    {front t : List EvbufferChain} {bs : List (Region ℕ)} (h : eo.ReadsOnly)
    (hprogress : eo.readInProgress = false) (hrefcnt : eo.buffer.refcnt = 1)
    (hunpinned : ∀ c ∈ eo.buffer.chains, c.pinned = false)
    (hsplit : eo.buffer.after = front ++ t) (hne : t ≠ []) (hshort : front.length ≤ 1)
    (hvecs : List.Forall₂ IsVec t bs) (htight : spaces t.dropLast < m)
    (huntouched : ∀ c ∈ t.tail, c.misalign = 0) (hroom : size bs = m) :
    ∃ r eo', eo.receive wsaRecv front t bs = some (r, eo') ∧ eo'.ReadsOnly ∧
      eo'.buffer.contents = eo.buffer.contents ∧
      ((r = 0 ∧ ∃ front t, eo'.Reading m front t) ∨ (r = -1 ∧ eo'.ReadIdle)) := by
  have hchains : eo.buffer.chains = eo.buffer.before ++ front ++ t := by
    rw [Evbuffer.chains, hsplit, List.append_assoc]
  have hpassed : ∀ c ∈ eo.buffer.before ++ front, c.pinned = false := fun c hc =>
    hunpinned c (hchains ▸ List.mem_append_left t hc)
  have ht : ∀ c ∈ t, c.pinned = false := fun c hc =>
    hunpinned c (hchains ▸ List.mem_append_right _ hc)
  have hlen : (t.map fun c => c.mark true .memPinnedR).length = bs.length := by
    rw [List.length_map]
    exact hvecs.length_eq
  rw [receive, pinAll_eq fun c hc => not_has_of_not_pinned (ht c hc) _, Option.bind_some,
    if_pos hlen]
  -- the buffer once the chains are pinned and the reference is taken
  have hafter : (front ++ t.map fun c => c.mark true .memPinnedR).map EvbufferChain.unmarked =
      eo.buffer.after.map EvbufferChain.unmarked := by
    rw [hsplit, List.map_append, List.map_append, map_unmarked_mark]
  have hsound : Evbuffer.Sound (Evbuffer.incref { eo.buffer with
      after := front ++ t.map fun c => c.mark true .memPinnedR }) :=
    h.wf.toSound.of_unmarked rfl hafter rfl rfl
  have hreading : Reading { eo with
      buffer := Evbuffer.incref { eo.buffer with
        after := front ++ t.map fun c => c.mark true .memPinnedR }
      readInProgress := true
      firstPinned := (t.map fun c => c.mark true .memPinnedR).head?.map EvbufferChain.addr
      buffers := bs } m front (t.map fun c => c.mark true .memPinnedR) :=
    reading_of_marked rfl (congrArg Nat.succ hrefcnt) rfl rfl hne hshort hpassed ht hvecs htight
      huntouched hroom
  cases wsaRecv with
  | true =>
      refine ⟨0, _, rfl, ⟨⟨hsound, h.wf.cleared, h.wf.reports⟩, h.thawed, h.undangled,
        h.noWrite⟩, contents_unmarked rfl rfl hafter, Or.inl ⟨rfl, _, _, hreading⟩⟩
  | false =>
      obtain ⟨b, a, hrelease, hb, ha, hfree⟩ :
          ∃ b a, pinRelease { eo with
            buffer := Evbuffer.incref { eo.buffer with
              after := front ++ t.map fun c => c.mark true .memPinnedR }
            firstPinned := (t.map fun c => c.mark true .memPinnedR).head?.map EvbufferChain.addr
            buffers := bs } .memPinnedR = _ ∧ _ :=
        pinRelease_reading h.undangled (List.append_assoc _ _ _).symm hreading.ne_nil hpassed
          hreading.pinned rfl hlen.symm hsound.nodup
      dsimp only
      rw [if_neg (by decide), hrelease, Option.bind_some,
        Evbuffer.decrefAndUnlock_of_two (congrArg Nat.succ hrefcnt)]
      have hafter' := ha.trans hafter
      refine ⟨-1, _, rfl, ⟨⟨h.wf.toSound.of_unmarked hb hafter' rfl rfl, h.wf.cleared,
        h.wf.reports⟩, h.thawed, h.undangled, h.noWrite⟩, contents_unmarked rfl hb hafter',
        Or.inr ⟨rfl, hprogress, rfl, rfl, hfree⟩⟩

/-- **Launching**: `evbuffer_launch_read` on an idle buffer that is ready for it does not fail
an assertion. It leaves the bytes, and either a read is under way, or the buffer is as idle
as before. -/
theorem evbufferLaunchRead_eq {P : Platform} {malloc wsaRecv : Bool} {m : ℕ}
    {eo : EvbufferOverlapped} (h : eo.ReadsOnly) (hidle : eo.ReadIdle)
    (hready : Ready m eo.buffer.after) :
    ∃ r eo', eo.evbufferLaunchRead P malloc wsaRecv m = some (r, eo') ∧ eo'.ReadsOnly ∧
      eo'.buffer.contents = eo.buffer.contents ∧
      ((r = 0 ∧ ∃ front t, eo'.Reading m front t) ∨ (r = -1 ∧ eo'.ReadIdle)) := by
  have hm : 0 < m := Nat.lt_of_le_of_lt (Nat.zero_le _) hready.tight
  have hunpinned : ∀ c ∈ eo.buffer.after, c.pinned = false := fun c hc =>
    hidle.unpinned c (List.mem_append_right _ hc)
  have hslots : 2 ≤ maxWsabufs := by decide
  obtain ⟨r, after', addr', hexp, hext, hr⟩ :
      ∃ r after' addr', eo.buffer.expandFast P malloc m maxWsabufs = some (r, _) ∧ _ ∧ _ :=
    expandFast_eq h.wf.toSound hready hslots hunpinned
  have hwf := hext.wf h.wf
  have hcontents := hext.contents_eq h.wf.toSound
  have hunpinned' : ∀ c ∈ eo.buffer.before ++ after', c.pinned = false := by
    intro c hc
    rcases List.mem_append.mp hc with hc | hc
    · exact hidle.unpinned c (List.mem_append_left _ hc)
    · rcases hext.mem_or hc with hc | ⟨_, hnew, -⟩
      · exact hunpinned c hc
      · rw [EvbufferChain.pinned, hnew.unpinned.1, hnew.unpinned.2]
        rfl
  rw [evbufferLaunchRead, h.noWrite, if_neg (by decide), hidle.freezeEnd, hidle.inProgress,
    if_neg (by decide)]
  dsimp only
  rw [hexp, Option.bind_some]
  rcases hr with rfl | ⟨rfl, hne, hroomy⟩
  · refine ⟨-1, _, rfl, ⟨hwf, h.thawed, h.undangled, rfl⟩, hcontents, Or.inr ⟨rfl, ?_⟩⟩
    exact ⟨rfl, hidle.freezeEnd, hidle.refcnt, hunpinned'⟩
  · have hzero : ¬ ((0 : ℤ) = -1) := by decide
    rw [if_neg hzero]
    obtain ⟨skip, bs, hvec, hvecs, hroom, hrest, hsplit, hshort⟩ :
        ∃ skip bs, Evbuffer.readSetupVecs { eo.buffer with
          after := after', nextAddr := addr', freezeEnd := true } m maxWsabufs true = _ ∧ _ :=
      readSetupVecs_eq hne hm hroomy
    dsimp only at hrest hsplit hshort hvecs ⊢
    rw [hvec, Option.bind_some, hrest]
    have hne' : vecChains after' ≠ [] := by
      intro hnil
      have := hroomy.enough
      rw [hnil, spaces_nil] at this
      omega
    have htail : ∀ c ∈ (vecChains after').tail, c.misalign = 0 := by
      intro c hc
      refine hext.untouched hready c ?_
      rw [hsplit]
      generalize (if skip = true then List.take 1 after' else []) = front
      cases front with
      | nil => exact hc
      | cons d front => exact List.mem_append_right front (List.mem_of_mem_tail hc)
    obtain ⟨r, eo', heq, hro, hsame, hcases⟩ : ∃ r eo', receive wsaRecv _ (vecChains after') bs
        { eo with
          buffer := { eo.buffer with after := after', nextAddr := addr', freezeEnd := true }
          readInProgress := false
          writeInProgress := false
          firstPinned := none
          buffers := [] } = some (r, eo') ∧ _ ∧ _ ∧ _ :=
      receive_eq ⟨⟨⟨hwf.fits, hwf.total, hwf.nodup, hwf.fresh, hwf.trailing, hwf.leading⟩,
        h.wf.cleared, h.wf.reports⟩, h.thawed, h.undangled, rfl⟩ rfl hidle.refcnt hunpinned'
        hsplit hne' hshort hvecs hroomy.tight htail hroom
    exact ⟨r, eo', heq, hro, hsame.trans hcontents, hcases⟩

/-- The chains of a read but its first have no data. -/
theorem Reading.tail_empty {eo : EvbufferOverlapped} {m : ℕ} {front t : List EvbufferChain}
    (h : eo.Reading m front t) (hwf : eo.buffer.Sound) : ∀ c ∈ t.tail, c.off = 0 := by
  intro c hc
  refine hwf.trailing c ?_
  rw [h.split]
  cases front with
  | nil => exact hc
  | cons d front => exact List.mem_append_right front (List.mem_of_mem_tail hc)

theorem Reading.chains {eo : EvbufferOverlapped} {m : ℕ} {front t : List EvbufferChain}
    (h : eo.Reading m front t) : eo.buffer.chains = eo.buffer.before ++ front ++ t := by
  rw [Evbuffer.chains, h.split, List.append_assoc]

/-- While a read is under way the last chain is pinned. -/
theorem Reading.hasPinnedR {eo : EvbufferOverlapped} {m : ℕ} {front t : List EvbufferChain}
    (h : eo.Reading m front t) : eo.buffer.hasPinnedR = true := by
  have hlast : eo.buffer.chains.getLast? = some (t.getLast h.ne_nil) := by
    rw [h.chains, List.getLast?_append_of_ne_nil _ h.ne_nil, List.getLast?_eq_some_getLast h.ne_nil]
  rw [Evbuffer.hasPinnedR, hlast]
  exact (h.pinned _ (List.getLast_mem h.ne_nil)).1

/-! ### Committing -/

/-- What the loop of `evbuffer_commit_read` and the new `last_with_datap` make of the list of
chains. -/
structure CountedIn (buf : Evbuffer) (m n : ℕ) (front t X b a : List EvbufferChain) : Prop where
  chains : b ++ a = buf.before ++ front ++ X
  grown : List.Forall₂ Grown t X
  sound : Evbuffer.Sound { buf with before := b, after := a, totalLen := buf.totalLen + n }
  ready : 0 < n → Ready m a

/-- Counting bytes in keeps the chains sound, and the buffer is ready for the next read when
there were any. -/
theorem countedIn_of_committed {buf : Evbuffer} {m n : ℕ} {front t filled rest : List EvbufferChain}
    {bs : List (Region ℕ)} (h : buf.Sound) (hsplit : buf.after = front ++ t)
    (hvecs : List.Forall₂ IsVec t bs) (htight : spaces t.dropLast < m)
    (huntouched : ∀ c ∈ t.tail, c.misalign = 0) (htail : ∀ c ∈ t.tail, c.off = 0)
    (hn : n ≤ size bs) (hcom : Committed buf.mem t bs n filled rest) :
    ∃ b a, advanceLast front (filled, rest) buf = { buf with before := b, after := a } ∧
      CountedIn buf m n front t (filled ++ rest) b a := by
  have hchains : buf.chains = buf.before ++ front ++ t := by
    rw [Evbuffer.chains, hsplit, List.append_assoc]
  have hbytes : bytesIn (filled ++ rest) = bytesIn t + n := by
    have := congrArg List.length hcom.queue_eq
    rw [length_queue, List.length_append, length_queue, List.length_take, length_slices] at this
    omega
  have haddrs := map_addr_of_grown hcom.grown
  -- the cut, and what it needs
  obtain ⟨b, a, hcut, hba, hleading, htrailing, hready⟩ :
      ∃ b a, advanceLast front (filled, rest) buf = { buf with before := b, after := a } ∧
        b ++ a = buf.before ++ front ++ (filled ++ rest) ∧
        (b ≠ [] → ∃ c ∈ a.head?, c.off ≠ 0) ∧ (∀ c ∈ a.tail, c.off = 0) ∧
        (0 < n → Ready m a) := by
    by_cases hzero : n = 0
    · obtain ⟨rfl, rfl⟩ := hcom.filled_eq hzero
      exact ⟨buf.before, buf.after, rfl, hchains, h.leading, h.trailing, by omega⟩
    · obtain ⟨last, hlast, hoff⟩ := hcom.last (by omega)
      obtain ⟨init, rfl⟩ : ∃ init, filled = init ++ [last] := List.getLast?_eq_some_iff.mp hlast
      have hrest : rest <:+ t.tail := hcom.shorter (by simp)
      have hspaces := spaces_dropLast_of_grown hcom.grown
      rw [List.append_assoc, List.dropLast_append_of_ne_nil (by simp), spaces_append] at hspaces
      refine ⟨buf.before ++ front ++ init, last :: rest, ?_, by simp, fun _ => ⟨last, rfl, hoff⟩,
        fun c hc => htail c (hrest.subset hc), fun _ => ⟨?_, fun c hc => ?_, ?_⟩⟩
      · rw [advanceLast]
        simp
      · intro c hc
        obtain rfl : last = c := Option.some.inj hc
        exact hoff
      · have hc' : c ∈ t.tail := hrest.subset hc
        obtain ⟨v, -, hv⟩ := exists_right_of_mem hvecs (List.mem_of_mem_tail hc')
        exact ⟨htail c hc', huntouched c hc', Nat.lt_of_lt_of_le hv.pos hv.le⟩
      · change spaces init + spaces (last :: rest).dropLast ≤ spaces t.dropLast at hspaces
        omega
  refine ⟨b, a, hcut, hba, hcom.grown,
    ⟨fun d hd => ?_, ?_, ?_, fun d hd => ?_, htrailing, hleading⟩, hready⟩
  · change d ∈ b ++ a at hd
    rw [hba] at hd
    rcases List.mem_append.mp hd with hd | hd
    · exact h.fits d (hchains ▸ List.mem_append_left t hd)
    · obtain ⟨c, hc, k, hk, rfl⟩ := exists_left_of_mem hcom.grown hd
      have := h.fits c (hchains ▸ List.mem_append_right _ hc)
      simp only [EvbufferChain.extend]
      rw [EvbufferChain.spaceLen] at hk
      omega
  · change buf.totalLen + n = bytesIn (b ++ a)
    rw [hba, h.total, hchains, bytesIn_append _ t, bytesIn_append _ (filled ++ rest), hbytes]
    omega
  · change ((b ++ a).map EvbufferChain.addr).Nodup
    rw [hba, List.map_append, haddrs, ← List.map_append, ← hchains]
    exact h.nodup
  · change d ∈ b ++ a at hd
    rw [hba] at hd
    rcases List.mem_append.mp hd with hd | hd
    · exact h.fresh d (hchains ▸ List.mem_append_left t hd)
    · obtain ⟨c, hc, k, -, rfl⟩ := exists_left_of_mem hcom.grown hd
      exact h.fresh c (hchains ▸ List.mem_append_right _ hc)

/-- The end of a commit: the callbacks run, and the reference of the launch is dropped. -/
theorem settle_eq {buf : Evbuffer} (h : buf.Sound) (hrefcnt : buf.refcnt = 2) {last : ℕ}
    (hreports : Tracks 0 buf.infos last)
    (heq : buf.totalLen + buf.nDelForCb = last + buf.nAddForCb) :
    ∃ infos, buf.invokeCallbacks.decrefAndUnlock = some { buf with
        nAddForCb := 0, nDelForCb := 0, refcnt := 1, infos := infos } ∧
      Evbuffer.Wf { buf with nAddForCb := 0, nDelForCb := 0, refcnt := 1, infos := infos } := by
  have hinfos := hreports.invokeCallbacks heq
  refine ⟨buf.invokeCallbacks.infos, ?_, ⟨⟨h.fits, h.total, h.nodup, h.fresh, h.trailing,
    h.leading⟩, ⟨rfl, rfl⟩, hinfos⟩⟩
  rw [invokeCallbacks_eq]
  exact Evbuffer.decrefAndUnlock_of_two hrefcnt

/-- `evbuffer_commit_read` from the loop on. -/
theorem countIn_eq {m n : ℕ} {eo : EvbufferOverlapped} {front t : List EvbufferChain}
    (h : eo.ReadsOnly) (hr : eo.Reading m front t) (hfreeze : eo.buffer.freezeEnd = false)
    (hn : n ≤ size eo.buffers) :
    ∃ eo', eo.countIn n front t = some eo' ∧ eo'.ReadsOnly ∧ eo'.ReadIdle ∧
      eo'.buffer.contents = eo.buffer.contents ++ (slices eo.buffer.mem eo.buffers).take n ∧
      (0 < n → Ready m eo'.buffer.after) := by
  have hchains := hr.chains
  have htail := hr.tail_empty h.wf.toSound
  obtain ⟨filled, rest, hloop, hcom⟩ := @commitLoop_eq eo.buffer.mem t eo.buffers n hr.vecs htail hn
  obtain ⟨b, a, hcut, hcounted⟩ := countedIn_of_committed h.wf.toSound hr.split hr.vecs hr.tight
    hr.untouched htail hn hcom
  rw [countIn, hloop, Option.bind_some, hcut]
  have hqueue := hcom.queue_eq
  generalize filled ++ rest = X at hcounted hqueue
  have hX : ∀ d ∈ X, d.memPinnedR = true ∧ d.memPinnedW = false := by
    intro d hd
    obtain ⟨c, hc, k, -, rfl⟩ := exists_left_of_mem hcounted.grown hd
    exact hr.pinned c hc
  have hfirst : eo.firstPinned = X.head?.map EvbufferChain.addr := by
    rw [hr.first, ← List.head?_map, ← List.head?_map, map_addr_of_grown hcounted.grown]
  have hlen : eo.buffers.length = X.length :=
    hr.vecs.length_eq.symm.trans hcounted.grown.length_eq
  have hne : X ≠ [] := by
    intro hnil
    have := hcounted.grown
    rw [hnil, List.forall₂_nil_right_iff] at this
    exact hr.ne_nil this
  obtain ⟨b', a', hrelease, hb, ha, hfree⟩ :
      ∃ b' a', pinRelease { eo with buffer := { eo.buffer with before := b, after := a } }
        .memPinnedR = _ ∧ _ :=
    pinRelease_reading h.undangled hcounted.chains hne hr.unpinned hX hfirst hlen
      hcounted.sound.nodup
  rw [hrelease, Option.bind_some]
  have hsound : Evbuffer.Sound
      (Evbuffer.added { eo.buffer with before := b', after := a' } n) :=
    hcounted.sound.of_unmarked hb ha rfl rfl
  have hreports : eo.buffer.totalLen + n + eo.buffer.nDelForCb =
      eo.buffer.totalLen + (eo.buffer.nAddForCb + n) := by
    obtain ⟨hadd, hdel⟩ := h.wf.cleared
    omega
  obtain ⟨infos, hsettle, hwf⟩ := settle_eq hsound hr.refcnt h.wf.reports hreports
  have hcontents : Evbuffer.contents
      (Evbuffer.added { eo.buffer with before := b', after := a' } n) =
        eo.buffer.contents ++ (slices eo.buffer.mem eo.buffers).take n := by
    calc Evbuffer.contents (Evbuffer.added { eo.buffer with before := b', after := a' } n)
        = Evbuffer.contents { eo.buffer with before := b, after := a } :=
          contents_unmarked rfl hb ha
      _ = queue eo.buffer.mem (b ++ a) := rfl
      _ = queue eo.buffer.mem (eo.buffer.before ++ front) ++ queue eo.buffer.mem X := by
          rw [hcounted.chains, queue_append]
      _ = queue eo.buffer.mem (eo.buffer.before ++ front ++ t) ++
            (slices eo.buffer.mem eo.buffers).take n := by
          rw [hqueue, ← List.append_assoc, ← queue_append]
      _ = eo.buffer.contents ++ (slices eo.buffer.mem eo.buffers).take n := by
          rw [← hchains]
          rfl
  dsimp only
  rw [hsettle]
  exact ⟨_, rfl, ⟨hwf, h.thawed, h.undangled, h.noWrite⟩, ⟨rfl, hfreeze, rfl, hfree⟩,
    hcontents, fun hpos => (hcounted.ready hpos).of_unmarked ha⟩

/-- **Committing**: `evbuffer_commit_read` of no more bytes than were asked for does not fail an
assertion. It appends the bytes in the vectors to the queue, and nothing stays pinned. -/
theorem evbufferCommitRead_eq {m n : ℕ} {eo : EvbufferOverlapped} {front t : List EvbufferChain}
    (h : eo.ReadsOnly) (hr : eo.Reading m front t) (hn : n ≤ size eo.buffers) :
    ∃ eo', eo.evbufferCommitRead n = some eo' ∧ eo'.ReadsOnly ∧ eo'.ReadIdle ∧
      eo'.buffer.contents = eo.buffer.contents ++ (slices eo.buffer.mem eo.buffers).take n ∧
      (0 < n → Ready m eo'.buffer.after) := by
  obtain ⟨eo', hcount, hrest⟩ : ∃ eo', countIn n front t { eo with
      buffer := { eo.buffer with freezeEnd := false } } = some eo' ∧ _ :=
    countIn_eq ⟨⟨⟨h.wf.fits, h.wf.total, h.wf.nodup, h.wf.fresh, h.wf.trailing, h.wf.leading⟩,
      h.wf.cleared, h.wf.reports⟩, h.thawed, h.undangled, h.noWrite⟩
      ⟨hr.inProgress, hr.refcnt, hr.split, hr.ne_nil, hr.short, hr.unpinned, hr.pinned, hr.first,
        hr.vecs, hr.tight, hr.untouched, hr.room⟩ rfl hn
  refine ⟨eo', ?_, hrest⟩
  have hcond : (!eo.readInProgress || eo.writeInProgress) = false := by
    rw [hr.inProgress, h.noWrite]
    rfl
  have hsplit := hr.split
  rw [evbufferCommitRead, hcond, if_neg (by decide)]
  dsimp only
  split
  case h_1 hnil =>
      rw [hnil] at hsplit
      exact absurd (List.append_eq_nil_iff.mp hsplit.symm).2 hr.ne_nil
  case h_2 c cs hafter =>
      rw [hafter] at hsplit
      cases front with
      | nil =>
          obtain rfl : c :: cs = t := hsplit
          exact (if_pos (hr.pinned c List.mem_cons_self).1).trans hcount
      | cons d front =>
          obtain rfl : front = [] := List.length_eq_zero_iff.mp (by
            have := hr.short
            rw [List.length_cons] at this
            omega)
          obtain ⟨rfl, rfl⟩ := List.cons.inj hsplit
          have hc : c.memPinnedR = false :=
            not_has_of_not_pinned (hr.unpinned c (by simp)) .memPinnedR
          refine (if_neg ?_).trans hcount
          rw [hc]
          decide

/-! ### Draining while a read is under way -/

/-- Draining chains of which none is freed while pinned leaves nothing dangling. -/
theorem dangling_of_drained {buf : Evbuffer} {n : ℕ} {us b a : List EvbufferChain}
    (h : ∀ u ∈ us, u.pinned = false) : (buf.drained n us b a).dangling = buf.dangling := by
  rw [Evbuffer.drained, invokeCallbacks_eq, freeAll_eq_self h]

/-- Draining from an idle buffer that is ready leaves it ready. -/
theorem ready_of_drains {before after us b a : List EvbufferChain} {m n : ℕ}
    (h : Ready m after) (hdrains : Drains before after n us b a)
    (hunpinned : ∀ c ∈ after, c.pinned = false) : Ready m a := by
  cases hdrains with
  | inBefore _ _ => exact h
  | @inAfter vs cs k hafter hstop hnil =>
      cases cs with
      | nil =>
          exact ⟨(fun c hc => absurd hc (Option.not_mem_none c)),
            (List.forall_mem_nil _), Nat.lt_of_le_of_lt (Nat.zero_le _) h.tight⟩
      | cons p rest =>
          have hp : p ∈ after := by rw [hafter]; simp
          have hk : k < p.off := by
            rcases hstop p rfl with hlt | ⟨hpin, -⟩
            · exact hlt
            · have := not_has_of_not_pinned (hunpinned p hp) .memPinnedR
              exact absurd hpin (by simpa [EvbufferChain.has] using this)
          cases vs with
          | nil =>
              obtain rfl : after = p :: rest := hafter
              refine ⟨fun c hc => ?_, h.tail, ?_⟩
              · obtain rfl : p.advance k = c := Option.some.inj hc
                change p.off - k ≠ 0
                omega
              · have htight := h.tight
                rw [List.modifyHead_cons]
                cases rest with
                | nil => exact htight
                | cons d rest =>
                    rw [List.dropLast_cons_cons, spaces_cons,
                      p.spaceLen_advance (Nat.le_of_lt hk)]
                    rwa [List.dropLast_cons_cons, spaces_cons] at htight
          | cons v vs =>
              have hoff : p.off = 0 := (h.tail p (by rw [hafter]; simp)).1
              omega

/-- Draining a list of chains at its front leaves the space. -/
theorem spaces_dropLast_modifyHead {cs : List EvbufferChain} {k : ℕ}
    (hk : ∀ p ∈ cs.head?, k ≤ p.off) :
    spaces (cs.modifyHead fun p => p.advance k).dropLast = spaces cs.dropLast := by
  cases cs with
  | nil => rfl
  | cons p rest =>
      rw [List.modifyHead_cons]
      cases rest with
      | nil => rfl
      | cons d rest =>
          rw [List.dropLast_cons_cons, List.dropLast_cons_cons, spaces_cons, spaces_cons,
            p.spaceLen_advance (hk p rfl)]

/-- Draining the first chain of a read leaves its vectors in place. -/
theorem Reading.advance {eo : EvbufferOverlapped} {buf' : Evbuffer} {m k : ℕ}
    {front front' t : List EvbufferChain} (h : eo.Reading m front t)
    (hrefcnt : buf'.refcnt = eo.buffer.refcnt)
    (hsplit : buf'.after = front' ++ t.modifyHead fun p => p.advance k)
    (hshort : front'.length ≤ 1) (hunpinned : ∀ c ∈ buf'.before ++ front', c.pinned = false)
    (hk : ∀ p ∈ t.head?, k ≤ p.off) :
    Reading { eo with buffer := buf' } m front' (t.modifyHead fun p => p.advance k) := by
  have htight := h.tight
  rw [← spaces_dropLast_modifyHead hk] at htight
  have hfirst := h.first
  have hvecs := h.vecs
  obtain ⟨p, rest, rfl⟩ := List.exists_cons_of_ne_nil h.ne_nil
  refine ⟨h.inProgress, hrefcnt.trans h.refcnt, hsplit, List.cons_ne_nil _ _, hshort, hunpinned,
    fun c hc => ?_, hfirst, ?_, htight, h.untouched, h.room⟩
  · rcases List.mem_cons.mp hc with rfl | hc
    · exact h.pinned p List.mem_cons_self
    · exact h.pinned c (List.mem_cons_of_mem p hc)
  · obtain ⟨b, bs, hv, hvs, heq⟩ := List.forall₂_cons_left_iff.mp hvecs
    change List.Forall₂ IsVec _ eo.buffers
    rw [heq]
    exact List.Forall₂.cons (hv.of_advance (hk p rfl)) hvs

/-- While a read is under way, draining stops at its first chain at the latest. -/
theorem Reading.drains {eo : EvbufferOverlapped} {m n : ℕ} {front t us b a : List EvbufferChain}
    (h : eo.Reading m front t) (hdrains : Drains eo.buffer.before eo.buffer.after n us b a)
    (hus : ∀ u ∈ us, u.memPinnedR = false) :
    (∀ u ∈ us, u.pinned = false) ∧
    ∃ front' k, a = front' ++ (t.modifyHead fun p => p.advance k) ∧ front'.length ≤ 1 ∧
      (∀ c ∈ b ++ front', c.pinned = false) ∧ ∀ p ∈ t.head?, k ≤ p.off := by
  have hsame : (t.modifyHead fun p => p.advance 0) = t := by
    cases t <;> rfl
  cases hdrains with
  | @inBefore us rest p k hbefore hlt =>
      have hpassed := h.unpinned
      rw [hbefore] at hpassed
      refine ⟨fun u hu => hpassed u (by simp [hu]), front, 0, ?_, h.short, fun c hc => ?_,
        fun _ _ => Nat.zero_le _⟩
      · rw [hsame]
        exact h.split
      · rcases List.mem_append.mp hc with hc | hc
        · rcases List.mem_cons.mp hc with rfl | hc
          · exact hpassed p (by simp)
          · exact hpassed c (by simp [hc])
        · exact hpassed c (by simp [hc])
  | @inAfter vs cs k hafter hstop hnil =>
      have hcut : front ++ t = vs ++ cs := h.split.symm.trans hafter
      have hle : ∀ p ∈ cs.head?, k ≤ p.off := by
        intro p hp
        rcases hstop p hp with hlt | ⟨-, heq⟩ <;> omega
      rcases List.append_eq_append_iff.mp hcut with ⟨ws, rfl, rfl⟩ | ⟨fs, rfl, rfl⟩
      · -- nothing of the read has been freed
        obtain rfl : ws = [] := by
          cases ws with
          | nil => rfl
          | cons w ws =>
              have hR := (h.pinned w (by simp)).1
              rw [hus w (by simp)] at hR
              cases hR
        refine ⟨fun u hu => h.unpinned u (by simpa using hu), [], k, rfl, Nat.zero_le 1,
          (List.forall_mem_nil _), hle⟩
      · have hshort := h.short
        have hpassed := h.unpinned
        cases fs with
        | nil =>
            refine ⟨fun u hu => hpassed u (by simpa using hu), [], k, rfl, Nat.zero_le 1,
              (List.forall_mem_nil _), hle⟩
        | cons c fs =>
            obtain ⟨rfl, rfl⟩ : vs = [] ∧ fs = [] := by
              rw [List.length_append, List.length_cons] at hshort
              exact ⟨List.length_eq_zero_iff.mp (by omega), List.length_eq_zero_iff.mp (by omega)⟩
            refine ⟨fun u hu => hpassed u ?_, [c.advance k], 0, ?_, Nat.le_refl 1, fun d hd => ?_,
              fun _ _ => Nat.zero_le _⟩
            · exact List.mem_append_left _ (by simpa using hu)
            · rw [hsame]
              rfl
            · rw [List.nil_append, List.mem_singleton] at hd
              subst hd
              exact hpassed c (by simp)

end EvbufferOverlapped

/-! ### The invariant -/

/-- The bytes that have arrived are those the server has taken, those in the buffer and those
in the vectors, in this order; and the buffer is ready for whatever comes next. -/
structure ReadSide.Inv (m : ℕ) (s : ReadSide) : Prop where
  readsOnly : s.eo.ReadsOnly
  account : s.taken ++ s.eo.buffer.contents ++ s.received = s.arrived
  phase : (s.eo.ReadIdle ∧ s.received = [] ∧ (s.ok = true → Ready m s.eo.buffer.after)) ∨
    (∃ front t, s.eo.Reading m front t ∧ s.received.length ≤ size s.eo.buffers ∧
      (slices s.eo.buffer.mem s.eo.buffers).take s.received.length = s.received)

namespace ReadSide

/-- The invariant holds at the start. -/
theorem inv_new {m : ℕ} (hm : 0 < m) (mem : ℕ → ℕ → Byte) : (new mem).Inv m := by
  refine ⟨⟨wf_new mem, rfl, rfl, rfl⟩, rfl,
    Or.inl ⟨⟨rfl, rfl, rfl, List.forall_mem_nil _⟩, rfl, fun _ => ?_⟩⟩
  exact ⟨(fun c hc => absurd hc (Option.not_mem_none c)), List.forall_mem_nil _, hm⟩

/-- Behind a chain that a read has pinned there is no data. -/
theorem Inv.pinsTrail {m : ℕ} {s : ReadSide} (h : s.Inv m) : PinsTrail s.eo.buffer.chains := by
  rcases h.phase with ⟨hidle, -⟩ | ⟨front, t, hr, -⟩
  · rw [← List.append_nil s.eo.buffer.chains]
    exact pinsTrail_append
      (fun u hu => not_has_of_not_pinned (hidle.unpinned u hu) .memPinnedR)
      (List.forall_mem_nil _)
  · rw [hr.chains]
    exact pinsTrail_append
      (fun u hu => not_has_of_not_pinned (hr.unpinned u hu) .memPinnedR)
      (hr.tail_empty h.readsOnly.wf.toSound)

/-- Taking bytes out of the buffer keeps the invariant, also while a read is under way. -/
theorem Inv.remove {m : ℕ} {s : ReadSide} (h : s.Inv m) (size : ℕ) :
    ∃ n buf', s.eo.buffer.evbufferRemove size = some (n, s.eo.buffer.contents.take size, buf') ∧
      buf'.contents = s.eo.buffer.contents.drop size ∧
      Inv m { s with
        eo := { s.eo with buffer := buf' }
        taken := s.taken ++ s.eo.buffer.contents.take size } := by
  obtain ⟨buf', hremove, hdrained⟩ :=
    evbufferRemove_eq h.readsOnly.wf h.readsOnly.thawed h.pinsTrail size
  obtain ⟨hmem, hstart, hend, hrefcnt⟩ := hdrained.frame
  have hcontents := hdrained.contents_eq
  have hwf := hdrained.wf h.readsOnly.wf
  have hdrop : buf'.contents = s.eo.buffer.contents.drop size := by
    rw [hcontents, ← h.readsOnly.wf.length_contents]
    by_cases hle : size ≤ s.eo.buffer.contents.length
    · rw [Nat.min_eq_left hle]
    · rw [Nat.min_eq_right (by omega), List.drop_length, List.drop_of_length_le (by omega)]
  have haccount : s.taken ++ s.eo.buffer.contents.take size ++ buf'.contents ++ s.received =
      s.arrived := by
    rw [hdrop, List.append_assoc s.taken, List.take_append_drop]
    exact h.account
  suffices hphase : buf'.dangling = [] ∧
      ((EvbufferOverlapped.ReadIdle { s.eo with buffer := buf' } ∧ s.received = [] ∧
          (s.ok = true → Ready m buf'.after)) ∨
        ∃ front t, EvbufferOverlapped.Reading { s.eo with buffer := buf' } m front t ∧
          s.received.length ≤ Regions.size s.eo.buffers ∧
          (slices buf'.mem s.eo.buffers).take s.received.length = s.received) from
    ⟨_, buf', hremove, hdrop, ⟨hwf, hstart.trans h.readsOnly.thawed, hphase.1,
      h.readsOnly.noWrite⟩, haccount, hphase.2⟩
  rcases hdrained with ⟨-, rfl⟩ | ⟨hn, us, b, a, hdrains, hus, rfl⟩
  · exact ⟨h.readsOnly.undangled, h.phase⟩
  · have hundangled := h.readsOnly.undangled
    rcases h.phase with ⟨hidle, hnil, hready⟩ | ⟨front, t, hr, hlen, hfilled⟩
    · have hfree : ∀ u ∈ us, u.pinned = false := fun u hu =>
        hidle.unpinned u (hdrains.freed_subset hu)
      refine ⟨(EvbufferOverlapped.dangling_of_drained hfree).trans hundangled, Or.inl
        ⟨⟨hidle.inProgress, hend.trans hidle.freezeEnd, hrefcnt.trans hidle.refcnt,
          fun c hc => ?_⟩, hnil, fun hok => ?_⟩⟩
      · rw [Evbuffer.drained, invokeCallbacks_eq] at hc
        obtain ⟨p, hp, k, -, rfl⟩ := hdrains.mem_chains hc
        exact hidle.unpinned p hp
      · rw [Evbuffer.drained, invokeCallbacks_eq]
        exact EvbufferOverlapped.ready_of_drains (hready hok) hdrains fun c hc =>
          hidle.unpinned c (List.mem_append_right _ hc)
    · obtain ⟨hfree, front', k, ha, hshort, hpassed, hk⟩ := hr.drains hdrains (hus hr.hasPinnedR)
      refine ⟨(EvbufferOverlapped.dangling_of_drained hfree).trans hundangled, Or.inr
        ⟨front', _, hr.advance hrefcnt ?_ hshort ?_ hk, hlen, ?_⟩⟩
      · rw [Evbuffer.drained, invokeCallbacks_eq]
        exact ha
      · rw [Evbuffer.drained, invokeCallbacks_eq]
        exact hpassed
      · rw [hmem]
        exact hfilled

/-- `bufferevent_read` takes the first bytes of the buffer. -/
theorem Inv.read {m : ℕ} {s : ReadSide} (h : s.Inv m) (size : ℕ) :
    ∃ s', s.read size = some s' ∧ s'.Inv m ∧ s'.ok = s.ok ∧
      s'.eo.readInProgress = s.eo.readInProgress ∧
      s'.taken = s.taken ++ s.eo.buffer.contents.take size ∧
      s'.eo.buffer.contents = s.eo.buffer.contents.drop size := by
  obtain ⟨n, buf', hremove, hcontents, hinv⟩ := h.remove size
  refine ⟨_, ?_, hinv, rfl, rfl, rfl, hcontents⟩
  rw [ReadSide.read, hremove]
  rfl

/-- Where the kernel writes while a read is under way: into the free space of a pinned
chain, within its block. -/
theorem cell_in_space {m : ℕ} {eo : EvbufferOverlapped} {front t : List EvbufferChain}
    (h : eo.ReadsOnly) (hr : eo.Reading m front t) {i : ℕ} {p : ℕ × ℕ}
    (hcell : cell eo.buffers i = some p) :
    ∃ c ∈ eo.buffer.chains, c.memPinnedR = true ∧ p.1 = c.addr ∧
      c.misalign + c.off ≤ p.2 ∧ p.2 < c.bufferLen := by
  obtain ⟨b, hb, hblock, hlo, hhi⟩ := mem_of_cell hcell
  obtain ⟨c, hc, hvec⟩ := exists_left_of_mem hr.vecs hb
  have hmem : c ∈ eo.buffer.chains := hr.chains ▸ List.mem_append_right _ hc
  have hfits := h.wf.fits c hmem
  have hle := hvec.le
  have hstart := hvec.start
  rw [EvbufferChain.spaceLen] at hle
  exact ⟨c, hmem, (hr.pinned c hc).1, hblock.symm.trans hvec.block, by omega, by omega⟩

/-- The kernel's next byte keeps the invariant. -/
theorem Inv.arrive {m : ℕ} {s : ReadSide} (h : s.Inv m) (b : Byte)
    (hprogress : s.eo.readInProgress = true) (hroom : s.received.length < size s.eo.buffers) :
    ∃ s', s.arrive b = some s' ∧ s'.Inv m ∧ s'.ok = s.ok ∧
      s'.eo.readInProgress = s.eo.readInProgress ∧
      s'.eo.buffer.contents = s.eo.buffer.contents := by
  rcases h.phase with ⟨hidle, -⟩ | ⟨front, t, hr, -, hfilled⟩
  · rw [hidle.inProgress] at hprogress
    cases hprogress
  obtain ⟨p, hcell⟩ := exists_cell hroom
  obtain ⟨c, hc, -, haddr, hlo, -⟩ := cell_in_space h.readsOnly hr hcell
  have hwf := h.readsOnly.wf
  have hnodup : (t.map EvbufferChain.addr).Nodup := by
    have := hwf.nodup
    rw [hr.chains, List.map_append] at this
    exact (List.nodup_append.mp this).2.1
  have hslices : slices (write s.eo.buffer.mem p.1 p.2 [b]) s.eo.buffers =
      (slices s.eo.buffer.mem s.eo.buffers).set s.received.length b :=
    slices_write_cell hcell (pairwise_apart hr.vecs hnodup) b
  have hstep : s.arrive b = some { s with
      eo := { s.eo with
        buffer := { s.eo.buffer with mem := write s.eo.buffer.mem p.1 p.2 [b] } }
      received := s.received ++ [b]
      arrived := s.arrived ++ [b] } := by
    rw [ReadSide.arrive, hcell]
    rfl
  have hsame := contents_write hwf.toSound hc hlo [b]
  rw [← haddr] at hsame
  refine ⟨_, hstep, ⟨⟨⟨⟨hwf.fits, hwf.total, hwf.nodup, hwf.fresh, hwf.trailing, hwf.leading⟩,
    hwf.cleared, hwf.reports⟩, h.readsOnly.thawed, h.readsOnly.undangled, h.readsOnly.noWrite⟩,
    ?_, Or.inr ⟨front, t, ⟨hr.inProgress, hr.refcnt, hr.split, hr.ne_nil, hr.short, hr.unpinned,
      hr.pinned, hr.first, hr.vecs, hr.tight, hr.untouched, hr.room⟩, ?_, ?_⟩⟩, rfl, rfl, hsame⟩
  · dsimp only
    rw [hsame, ← List.append_assoc, h.account]
  · rw [List.length_append, List.length_singleton]
    exact hroom
  · have hlen : s.received.length < (slices s.eo.buffer.mem s.eo.buffers).length := by
      rw [length_slices]
      exact hroom
    dsimp only
    rw [hslices, List.set_eq_take_append_cons_drop, if_pos hlen, hfilled, List.length_append,
      List.length_singleton, List.take_length_add_append]
    rfl

/-- The completion of a read keeps the invariant. -/
theorem Inv.commit {m : ℕ} {s : ReadSide} (h : s.Inv m) (ok : Bool)
    (hprogress : s.eo.readInProgress = true) :
    ∃ eo', s.eo.evbufferCommitRead s.received.length = some eo' ∧
      Inv m { s with eo := eo', ok := s.ok && ok && s.received ≠ [], received := [] } ∧
      eo'.readInProgress = false ∧
      eo'.buffer.contents = s.eo.buffer.contents ++ s.received := by
  rcases h.phase with ⟨hidle, -⟩ | ⟨front, t, hr, hlen, hfilled⟩
  · rw [hidle.inProgress] at hprogress
    cases hprogress
  obtain ⟨eo', hcommit, hro, hidle, hcontents, hready⟩ :=
    EvbufferOverlapped.evbufferCommitRead_eq h.readsOnly hr hlen
  rw [hfilled] at hcontents
  refine ⟨eo', hcommit, ⟨hro, ?_, Or.inl ⟨hidle, rfl, fun hok => hready ?_⟩⟩, hidle.inProgress,
    hcontents⟩
  · rw [hcontents, List.append_nil, ← List.append_assoc]
    exact h.account
  · have hne : s.received ≠ [] := by simpa using (Bool.and_eq_true_iff.mp hok).2
    exact List.length_pos_of_ne_nil hne

/-- Launching a read keeps the invariant. -/
theorem Inv.launch {P : Platform} {m : ℕ} {s : ReadSide} (h : s.Inv m) (malloc wsaRecv : Bool)
    (hprogress : s.eo.readInProgress = false) (hok : s.ok = true) :
    ∃ r eo', s.eo.evbufferLaunchRead P malloc wsaRecv m = some (r, eo') ∧
      Inv m { s with eo := eo', ok := r == 0 } ∧
      eo'.buffer.contents = s.eo.buffer.contents ∧
      ((r = 0 ∧ eo'.readInProgress = true) ∨ (r = -1 ∧ eo'.readInProgress = false)) := by
  rcases h.phase with ⟨hidle, hnil, hready⟩ | ⟨front, t, hr, -⟩
  · obtain ⟨r, eo', hlaunch, hro, hcontents, hcases⟩ : ∃ r eo',
        s.eo.evbufferLaunchRead P malloc wsaRecv m = some (r, eo') ∧ _ :=
      EvbufferOverlapped.evbufferLaunchRead_eq h.readsOnly hidle (hready hok)
    have haccount : s.taken ++ eo'.buffer.contents ++ s.received = s.arrived := by
      rw [hcontents]
      exact h.account
    rcases hcases with ⟨rfl, front, t, hr⟩ | ⟨rfl, hidle'⟩
    · refine ⟨0, eo', hlaunch, ⟨hro, haccount, Or.inr ⟨front, t, hr, ?_, ?_⟩⟩, hcontents,
        Or.inl ⟨rfl, hr.inProgress⟩⟩
      · rw [hnil]
        exact Nat.zero_le _
      · rw [hnil]
        rfl
    · have hfailed : ¬ ((-1 : ℤ) == 0) = true := by decide
      exact ⟨-1, eo', hlaunch, ⟨hro, haccount, Or.inl ⟨hidle', hnil, fun hc => absurd hc hfailed⟩⟩,
        hcontents, Or.inr ⟨rfl, hidle'.inProgress⟩⟩
  · rw [hr.inProgress] at hprogress
    cases hprogress

end ReadSide

end IocpEcho
