import IocpEcho.Registry

/-!
# The Read Callback and its own Error Callback

`iocp_conn_readcb` looks its bufferevent up in `map_Client` at line 173 and dereferences the
iterator at line 194, also in the branch for a bufferevent that was not found. It runs under
the lock of the bufferevent, so no other thread can erase the entry meanwhile. But
`bufferevent_read` at line 171 drains the input, which makes libevent consider the next
overlapped read on the same thread; when that read cannot be launched, libevent runs
`iocp_conn_eventcb` at once, below the read callback, and the entry is gone when the read
callback looks for it.

That is the only way: in every run in which the reads launched from inside the read callback
succeed, the iterator is valid at line 194.

## Main results

* `readcbSafe_of_reach`: the iterator is valid at line 194 when no read launched from inside
  the read callback fails.
* `not_readcbSafe_drainFails`: a failing launch makes it `map_Client.end()`.
-/

namespace IocpEcho

open Interleaving

/-- At line 194 the iterator points to the entry of the bufferevent, which is registered and
has not been freed. -/
def ReadcbSafe (s : State) : Prop :=
  ∀ t itFind a p post, s.stack t = .readcb (.l194 itFind a) p :: post →
    itFind = some p ∧ p ∈ s.mem.mapClient ∧ s.mem.Live p

/-- A read that `be_async_inbuf_callback` attempts to launch is launched. -/
def DrainLaunches (s : State) : Label Tid Outcome Event → Prop
  | .exec t o => ∀ p b post, s.stack t = .considerReading .inbuf p :: post →
      s.mem.heap p = some b → b.wantsRead = true → o.launched = true
  | .start _ _ => True

/-! ### What stands above a read callback -/

/-- Above a read callback stand only the frames of its own `bufferevent_read`, and not its
event callback. -/
def Calm : List Frame → Prop
  | [] => True
  | f :: post => (∀ line p, .readcb line p ∈ post →
      f = .considerReading .inbuf p ∨ f = .decrefAndUnlock p) ∧ Calm post

/-- A stack without a read callback is calm. -/
theorem calm_of_forall_notMem {l : List Frame} (h : ∀ line p, .readcb line p ∉ l) :
    Calm l := by
  induction l with
  | nil => trivial
  | cons f l ih =>
      refine ⟨fun line p hp => absurd (List.mem_cons_of_mem f hp) (h line p), ih ?_⟩
      exact fun line p hp => h line p (List.mem_cons_of_mem f hp)

/-- The iterator found, once line 173 has been executed. -/
def ReadLine.Found (p : Addr) : ReadLine → Prop
  | .l177 _ itFind | .l194 itFind _ => itFind = some p
  | _ => True

/-- Every read callback has its bufferevent registered and its callbacks set. -/
structure Reading (s : State) : Prop where
  calm : ∀ t, Calm (s.stack t)
  registered : ∀ t line p, .readcb line p ∈ s.stack t →
    p ∈ s.mem.mapClient ∧ ∃ c, s.mem.status p = some ⟨c, false, true⟩
  found : ∀ t line p, .readcb line p ∈ s.stack t → line.Found p

section Step

variable {s : State} {t : Tid} {o : Outcome} {f : Frame} {post : List Frame}
  {r : Memory × List Frame} {p : Addr}

/-- Where a read callback comes from. -/
theorem readcb_pushed {m : Memory} {line : ReadLine} (hr : exec t o f m = some r)
    (hg : .readcb line p ∈ r.2) :
    (f = .runReadcb p ∧ r.2 = [.readcb line p] ∧ line = .l162 ∧
      ∃ b, m.heap p = some b ∧ b.callbacks = true) ∨
    (∃ line', f = .readcb line' p) := by
  cases exec_pushes hr _ hg with
  | listenerCall hg => simp at hg
  | readFails hb hw ho hg => simp at hg
  | readcbCall hg => simp at hg
  | @readcb line' => exact Or.inr ⟨line', rfl⟩
  | runReadcb hb hcb =>
      refine Or.inl ⟨rfl, ?_, rfl, _, hb, hcb⟩
      rcases Memory.readBev_cases hr with ⟨hnone, -⟩ | ⟨b, hb', -, rfl⟩
      · rw [hnone] at hb
        simp at hb
      · obtain rfl := Option.some.inj (hb.symm.trans hb')
        simp [hcb]

/-- The frames that a statement of the read callback leaves: its next statement, alone or
below the calls of `bufferevent_read`. -/
theorem readcb_frames {m : Memory} {line line' : ReadLine}
    (hr : execReadcb m t o p line = some r) (hg : .readcb line' p ∈ r.2) :
    r.2 = [.readcb line' p] ∨
      r.2 = [.considerReading .inbuf p, .decrefAndUnlock p, .readcb line' p] := by
  cases line with
  | l162 =>
      rcases Memory.readBev_cases hr with ⟨-, rfl⟩ | ⟨b, -, -, rfl⟩
      · simp at hg
      · by_cases hin : b.input = []
        · simp [hin] at hg
        · simp only [if_neg hin, List.mem_singleton, Frame.readcb.injEq, and_true] at hg ⊢
          rw [hg]
          exact Or.inl rfl
  | l171 =>
      rcases Memory.onBev_cases hr with ⟨-, rfl⟩ | ⟨b, -, -, rfl⟩
      · simp only [List.mem_singleton] at hg
        rw [hg]
        exact Or.inl rfl
      · by_cases hin : b.input = []
        · simp only [if_pos hin, List.mem_singleton] at hg ⊢
          rw [hg]
          exact Or.inl rfl
        · simp only [if_neg hin] at hg ⊢
          have hline : line' = .l173 (readbuf b.input) := by simpa using hg
          rw [hline]
          exact Or.inr rfl
  | l173 buf =>
      obtain rfl := Option.some.inj hr
      rw [List.mem_singleton.mp hg]
      exact Or.inl rfl
  | l177 buf itFind =>
      obtain rfl := Option.some.inj hr
      rw [List.mem_singleton.mp hg]
      exact Or.inl rfl
  | l194 itFind a =>
      rcases Memory.onBev_cases hr with ⟨-, rfl⟩ | ⟨b, -, -, rfl⟩
      · simp at hg
      · simp [buffereventWrite] at hg

/-- The lookup of a registered bufferevent finds it. -/
theorem found_next {m : Memory} {line line' : ReadLine} (hp : p ∈ m.mapClient)
    (hfound : line.Found p) (hr : execReadcb m t o p line = some r)
    (hg : .readcb line' p ∈ r.2) : line'.Found p := by
  cases line with
  | l162 =>
      rcases Memory.readBev_cases hr with ⟨-, rfl⟩ | ⟨b, -, -, rfl⟩
      · simp at hg
      · by_cases hin : b.input = []
        · simp [hin] at hg
        · have hline : line' = .l171 := by simpa [hin] using hg
          rw [hline]
          trivial
  | l171 =>
      rcases Memory.onBev_cases hr with ⟨-, rfl⟩ | ⟨b, -, -, rfl⟩
      · have hline : line' = .l173 (readbuf []) := by simpa using hg
        rw [hline]
        trivial
      · by_cases hin : b.input = []
        · have hline : line' = .l173 (readbuf []) := by simpa [hin] using hg
          rw [hline]
          trivial
        · have hline : line' = .l173 (readbuf b.input) := by simpa [hin] using hg
          rw [hline]
          trivial
  | l173 buf =>
      obtain rfl := Option.some.inj hr
      have hline : line' = .l177 buf (some p) := by simpa [hp] using hg
      rw [hline]
      rfl
  | l177 buf itFind =>
      obtain rfl := Option.some.inj hr
      obtain ⟨rfl, -⟩ := Frame.readcb.inj (List.mem_singleton.mp hg)
      exact hfound
  | l194 itFind a =>
      rcases Memory.onBev_cases hr with ⟨-, rfl⟩ | ⟨b, -, -, rfl⟩
      · simp at hg
      · simp [buffereventWrite] at hg

/-- **A registered bufferevent with its callbacks set stays so** until its own event callback
erases or frees it. -/
theorem registered_stays (hbooks : Books s) (hs : s.stack t = f :: post)
    (hr : exec t o f s.mem = some r) {c : ℕ} (hp : p ∈ s.mem.mapClient)
    (hst : s.mem.status p = some ⟨c, false, true⟩)
    (hne : ∀ line w, f ≠ .eventcb line p w) :
    p ∈ r.1.mapClient ∧ r.1.status p = some ⟨c, false, true⟩ := by
  refine ⟨mem_stays hr hp (hne .l218), ?_⟩
  obtain ⟨cb, hcb, hst'⟩ := status_stays hbooks hs hr hst (hne .l219)
  rw [hst', hcb rfl]

/-- The event callback of a bufferevent does not run while its read callback does. -/
theorem Reading.ne_eventcb (h : Reading s) (hbooks : Books s) (hs : s.stack t = f :: post)
    {u : Tid} {line : ReadLine} (hg : .readcb line p ∈ s.stack u)
    (hpop : u = t → .readcb line p ∈ post) : ∀ line' w, f ≠ .eventcb line' p w := by
  rintro line' w rfl
  obtain rfl : u = t :=
    Disciplined.under_unique (p := p) hbooks hg rfl (hs ▸ List.mem_cons_self) rfl
  have hcalm := h.calm u
  rw [hs] at hcalm
  rcases hcalm.1 line p (hpop rfl) with hf | hf <;> simp at hf

/-- A statement keeps the stack calm, provided the reads launched from inside a read callback
are launched. -/
theorem Reading.calm_exec (h : Reading s) (hs : s.stack t = f :: post)
    (hr : exec t o f s.mem = some r) (hC : DrainLaunches s (.exec t o)) :
    Calm (r.2 ++ post) := by
  have hcalm := h.calm t
  rw [hs] at hcalm
  by_cases hpost : ∃ line p, .readcb line p ∈ post
  · obtain ⟨line, p, hmem⟩ := hpost
    have hnil : r.2 = [] := by
      refine List.eq_nil_iff_forall_not_mem.mpr fun g hg => ?_
      have hpush := exec_pushes hr g hg
      rcases hcalm.1 line p hmem with rfl | rfl
      · cases hpush with
        | readFails hb hw ho _ =>
            rw [hC p _ post hs hb hw] at ho
            simp at ho
      · cases hpush
    rw [hnil]
    exact hcalm.2
  · have hnone : ∀ line p, .readcb line p ∉ post := fun line p hp => hpost ⟨line, p, hp⟩
    by_cases hfs : ∃ line p, .readcb line p ∈ r.2
    · obtain ⟨line, p, hmem⟩ := hfs
      have hpostCalm := calm_of_forall_notMem hnone
      have hshape : r.2 = [.readcb line p] ∨
          r.2 = [.considerReading .inbuf p, .decrefAndUnlock p, .readcb line p] := by
        rcases readcb_pushed hr hmem with ⟨-, hsingle, -, -⟩ | ⟨line', rfl⟩
        · exact Or.inl hsingle
        · exact readcb_frames hr hmem
      have hnext : Calm (.readcb line p :: post) :=
        ⟨fun line' q hq => absurd hq (hnone line' q), hpostCalm⟩
      have hbelow : ∀ line' q, Frame.readcb line' q ∈ .readcb line p :: post → p = q := by
        intro line' q hq
        rcases List.mem_cons.mp hq with hq | hq
        · exact (Frame.readcb.inj hq).2.symm
        · exact absurd hq (hnone line' q)
      rcases hshape with hshape | hshape
      · rw [hshape]
        exact hnext
      · rw [hshape]
        refine ⟨fun line' q hq => ?_, fun line' q hq => ?_, hnext⟩
        · rcases List.mem_cons.mp hq with hq | hq
          · simp at hq
          · rw [hbelow line' q hq]
            exact Or.inl rfl
        · rw [hbelow line' q hq]
          exact Or.inr rfl
    · refine calm_of_forall_notMem fun line p hmem => ?_
      rcases List.mem_append.mp hmem with hmem | hmem
      · exact hfs ⟨line, p, hmem⟩
      · exact hnone line p hmem

/-- **Every statement keeps the read callbacks registered**, provided the reads launched from
inside them are launched. -/
theorem Reading.exec (h : Reading s) (hbooks : Books s) (hreg : Registry s)
    (hs : s.stack t = f :: post) (hr : exec t o f s.mem = some r)
    (hC : DrainLaunches s (.exec t o)) : Reading (s.set t r post) := by
  have htop : f ∈ s.stack t := hs ▸ List.mem_cons_self
  have hpostmem : ∀ g ∈ post, g ∈ s.stack t := fun g hg => hs ▸ List.mem_cons_of_mem f hg
  refine ⟨fun u => ?_, fun u line p hg => ?_, fun u line p hg => ?_⟩
  · by_cases hu : u = t
    · subst hu
      rw [Config.set_stack_self]
      exact h.calm_exec hs hr hC
    · rw [Config.set_stack_of_ne _ hu]
      exact h.calm u
  · -- the bufferevent was registered before the step, and the step is not its own erase
    have hbefore : (p ∈ s.mem.mapClient ∧ ∃ c, s.mem.status p = some ⟨c, false, true⟩) ∧
        ∀ line' w, f ≠ .eventcb line' p w := by
      rcases Config.mem_set_stack.mp hg with ⟨rfl, hg | hg⟩ | ⟨hu, hg⟩
      · rcases readcb_pushed hr hg with ⟨rfl, -, -, b, hb, hcb⟩ | ⟨line', rfl⟩
        · obtain ⟨hst, hmem⟩ := hreg.registered_of_under hbooks hs rfl rfl hb hcb
          exact ⟨⟨hmem, b.conn, hst⟩, fun line' w => by simp⟩
        · exact ⟨h.registered u line' p htop, fun line' w => by simp⟩
      · exact ⟨h.registered u line p (hpostmem _ hg),
          h.ne_eventcb hbooks hs (hpostmem _ hg) fun _ => hg⟩
      · exact ⟨h.registered u line p hg,
          h.ne_eventcb hbooks hs hg fun hut => absurd hut hu⟩
    obtain ⟨⟨hmem, c, hst⟩, hne⟩ := hbefore
    obtain ⟨hmem', hst'⟩ := registered_stays hbooks hs hr hmem hst hne
    exact ⟨hmem', c, hst'⟩
  · rcases Config.mem_set_stack.mp hg with ⟨rfl, hg | hg⟩ | ⟨hu, hg⟩
    · rcases readcb_pushed hr hg with ⟨-, -, rfl, -⟩ | ⟨line', rfl⟩
      · trivial
      · exact found_next (h.registered u line' p htop).1 (h.found u line' p htop) hr hg
    · exact h.found u line p (hpostmem _ hg)
    · exact h.found u line p hg

/-- Every outside event keeps the read callbacks registered. -/
theorem Reading.start {e : Event} (h : Reading s)
    (hr : start t e s.mem = some r) : Reading (s.set t r []) := by
  have hnone : ∀ line p, .readcb line p ∉ r.2 := by
    intro line p hg
    cases start_pushes hr _ hg with
    | calls hg => simp at hg
  have hold : ∀ u line p, .readcb line p ∈ (s.set t r []).stack u →
      .readcb line p ∈ s.stack u := by
    intro u line p hg
    exact (Config.mem_set_stack_start hg).resolve_left (hnone line p)
  obtain ⟨hmap, hstatus⟩ := start_quiet hr
  refine ⟨fun u => ?_, fun u line p hg => ?_, fun u line p hg => ?_⟩
  · by_cases hu : u = t
    · subst hu
      rw [Config.set_stack_self, List.append_nil]
      exact calm_of_forall_notMem hnone
    · rw [Config.set_stack_of_ne _ hu]
      exact h.calm u
  · rw [Config.set_mem, hmap, hstatus]
    exact h.registered u line p (hold u line p hg)
  · exact h.found u line p (hold u line p hg)

end Step

/-- No read callback runs initially. -/
theorem reading_init : Reading State.init where
  calm _ := trivial
  registered t line p hg := by simp [State.init] at hg
  found t line p hg := by simp [State.init] at hg

/-- The read callbacks stay registered over a step whose launches from inside a read callback
succeed. -/
theorem reading_step {s s' : State} {l : Label Tid Outcome Event} (hbooks : Books s)
    (hreg : Registry s) (hread : Reading s) (hl : DrainLaunches s l)
    (hstep : server.step s l = some s') : Reading s' := by
  rcases Program.step_cases hstep with
    ⟨t, o, f, post, r, rfl, hs, hr, rfl⟩ | ⟨t, e, r, rfl, -, hr, rfl⟩
  · exact hread.exec hbooks hreg hs hr hl
  · exact hread.start hr

/-- In every run in which the reads launched from inside a read callback are launched, every
read callback has its bufferevent registered. -/
theorem reading_of_reach {s : State} (h : Reach server.step DrainLaunches State.init s) :
    Reading s := by
  have hinv : (Books s ∧ Registry s) ∧ Reading s := by
    refine h.invariant (fun s => (Books s ∧ Registry s) ∧ Reading s)
      ⟨⟨books_init, registry_init⟩, reading_init⟩ fun s s' l hI hl hstep => ?_
    exact ⟨invariants_step hI.1 hstep, reading_step hI.1.1 hI.1.2 hI.2 hl hstep⟩
  exact hinv.2

/-- **The iterator is valid at line 194** in every run in which no read launched from inside
the read callback fails. -/
theorem readcbSafe_of_reach {s : State}
    (h : Reach server.step DrainLaunches State.init s) : ReadcbSafe s := by
  have hread := reading_of_reach h
  intro t itFind a p post hs
  have hmem : .readcb (.l194 itFind a) p ∈ s.stack t := hs ▸ List.mem_cons_self
  obtain ⟨hp, c, hst⟩ := hread.registered t _ p hmem
  exact ⟨hread.found t _ p hmem, hp, Memory.live_iff.mpr ⟨c, true, hst⟩⟩

/-- A whole accept callback on the dispatch thread, then a chunk that completes on another
thread, whose callback executes `n` statements up to line 171. -/
def readRun (n : ℕ) : List (Label Tid Outcome Event) :=
  acceptRun 14 ++ .start 1 (.readComplete 7 [97, 0] true) ::
    List.replicate n (.exec 1 goodOutcome)

/-- Every label of `readRun` meets the condition. -/
theorem drainLaunches_readRun (n : ℕ) :
    ∀ l ∈ readRun n, ∀ s, DrainLaunches s l := by
  intro l hl s
  have hcases : (∃ t e, l = .start t e) ∨ ∃ t, l = .exec t goodOutcome := by
    simp only [readRun, acceptRun, List.mem_append, List.mem_cons, List.mem_replicate] at hl
    rcases hl with (rfl | ⟨-, rfl⟩) | rfl | ⟨-, rfl⟩
    · exact Or.inl ⟨_, _, rfl⟩
    · exact Or.inr ⟨_, rfl⟩
    · exact Or.inl ⟨_, _, rfl⟩
    · exact Or.inr ⟨_, rfl⟩
  rcases hcases with ⟨t, e, rfl⟩ | ⟨t, rfl⟩
  · trivial
  · exact fun p b post _ _ _ => rfl

/-- The read callback of a run whose reads are launched, at line 194. -/
theorem readcbSafe_of_reach_readRun :
    ∃ s, run server.step State.init (readRun 7) = some s ∧
      (∃ itFind a post, s.stack 1 = .readcb (.l194 itFind a) 7 :: post) ∧ ReadcbSafe s :=
  ⟨_, rfl, ⟨_, _, _, rfl⟩,
    readcbSafe_of_reach (reach_of_run (along_of_forall (drainLaunches_readRun 7) _) rfl)⟩

/-- The read launched from inside `bufferevent_read` fails. -/
def drainFailsRun : List (Label Tid Outcome Event) :=
  readRun 3 ++ .exec 1 badOutcome :: List.replicate 8 (.exec 1 goodOutcome)

/-- When the read launched from inside `bufferevent_read` fails, `ItFind` is
`map_Client.end()` at line 194. -/
theorem not_readcbSafe_drainFails :
    ∃ s, Reach server.step Always State.init s ∧
      (∃ a post, s.stack 1 = .readcb (.l194 none a) 7 :: post) ∧
      (∃ b, s.mem.heap 7 = some b ∧ b.freed = true) ∧ ¬ ReadcbSafe s := by
  refine ⟨_, reach_of_run (along_always _ drainFailsRun _) rfl, ⟨_, _, rfl⟩, ⟨_, rfl, rfl⟩,
    fun h => ?_⟩
  obtain ⟨hfound, -, -⟩ := h 1 none _ 7 _ rfl
  simp at hfound

end IocpEcho
