import IocpEcho.Registry

/-!
# The Accept Callback after it has given the Connection away

`iocp_listener_cb` runs on the dispatch thread and holds no lock. From line 242 on, where it
enables reading, other threads may run the callbacks of the new bufferevent, and libevent may
run `iocp_conn_eventcb` inside `bufferevent_enable` itself when the first read cannot be
launched. The event callback frees the bufferevent, and the accept callback goes on with line
244 all the same. The older server of the same program (`listener_cb`) disables reading for
this reason.

The accept callback is safe exactly as long as libevent finds nothing to report: in every run
in which no operation on a bufferevent fails before its accept callback has returned, no
statement of the accept callback passes a freed bufferevent.

## Main results

* `acceptSafe_of_reach`: no use after free when no operation fails during the accept.
* `not_acceptSafe_enableFails`: a first read that cannot be launched leads to one.
* `acceptCount_exec`: no statement leaves more accept callbacks than it took.
-/

namespace IocpEcho

open Interleaving

/-- The statements of `iocp_listener_cb` that pass `bev` to libevent. -/
def ListenerLine.passesBev : ListenerLine → Bool
  | .l240 | .l241 | .l242 | .l244 => true
  | .l236 | .l238 | .l239 => false

/-- The statement that the accept callback executes next does not pass a bufferevent to
libevent on which `bufferevent_free` has been called. -/
def AcceptSafe (s : State) : Prop :=
  ∀ t line c p psin post, s.stack t = .listener line c p psin :: post →
    line.passesBev = true → ∃ b, s.mem.heap p = some b ∧ b.conn = c ∧ b.freed = false

/-- The accept callback of the bufferevent at `p` has not returned. -/
def Accepting (s : State) (p : Addr) : Prop :=
  ∃ t line c psin, .listener line c p psin ∈ s.stack t

/-- No operation on a bufferevent fails before its accept callback has returned: no launch,
and no completion with EOF or an error. -/
def NoEarlyFailure (s : State) : Label Tid Outcome Event → Prop
  | .exec t o => ∀ f post p b, s.stack t = f :: post → s.mem.heap p = some b →
      ((∃ site, f = .considerReading site p) ∧ b.wantsRead = true ∨
        f = .considerWriting p ∧ b.wantsWrite = true) →
      o.launched = false → ¬ Accepting s p
  | .start _ e => ∀ p b, s.mem.heap p = some b → b.ok = true → e.Fails p → ¬ Accepting s p

/-- An event callback of `p` runs or is about to run. -/
def Closing (s : State) (p : Addr) : Prop :=
  ∃ t, (∃ w, .runEventcb p w ∈ s.stack t) ∨ (∃ line w, .eventcb line p w ∈ s.stack t)

/-- An accept callback that has not returned has its bufferevent unfreed, and no event
callback is near it. -/
structure AcceptInv (s : State) : Prop where
  own : ∀ t line c p psin, .listener line c p psin ∈ s.stack t →
    ∃ cb, s.mem.status p = some ⟨c, false, cb⟩
  apart : ∀ p, Closing s p → ¬ Accepting s p

section Step

variable {s : State} {t : Tid} {o : Outcome} {f : Frame} {post : List Frame}
  {r : Memory × List Frame} {p : Addr}

/-- Where a statement of the accept callback comes from. -/
theorem listener_pushed {m : Memory} {line : ListenerLine} {c : ℕ} {psin : SockaddrIn}
    (hr : exec t o f m = some r) (hg : .listener line c p psin ∈ r.2) :
    (∃ line', line' ≠ .l244 ∧ f = .listener line' c p psin) ∨
    (f = .iocpListenerCb psin ∧ m.heap p = none ∧ c = m.nextConn ∧
      r.1.status p = some ⟨c, false, false⟩) := by
  cases exec_pushes hr _ hg with
  | created hp =>
      refine Or.inr ⟨rfl, hp, rfl, ?_⟩
      rcases exec_iocpListenerCb hr with ⟨-, rfl⟩ | ⟨q, -, -, rfl⟩
      · simp at hg
      · simp only [List.mem_singleton, Frame.listener.injEq, true_and, and_true] at hg
        subst hg
        exact Memory.status_setBev_self ..
  | listener hl => exact Or.inl ⟨_, hl, rfl⟩
  | listenerCall hg => simp at hg
  | readcbCall hg => simp at hg
  | readFails hb hw ho hg => simp at hg

/-- An accept callback after a step ran before it, or was created by it. -/
theorem Accepting.of_exec (hs : s.stack t = f :: post) (hr : exec t o f s.mem = some r)
    (h : Accepting (s.set t r post) p) :
    Accepting s p ∨ ((∃ sa, f = .iocpListenerCb sa) ∧ s.mem.heap p = none) := by
  obtain ⟨u, line, c, psin, hg⟩ := h
  rcases Config.mem_set_stack.mp hg with ⟨-, hg | hg⟩ | ⟨-, hg⟩
  · rcases listener_pushed hr hg with ⟨line', -, rfl⟩ | ⟨rfl, hp, -, -⟩
    · exact Or.inl ⟨t, line', c, psin, hs ▸ List.mem_cons_self⟩
    · exact Or.inr ⟨⟨psin, rfl⟩, hp⟩
  · exact Or.inl ⟨t, line, c, psin, hs ▸ List.mem_cons_of_mem f hg⟩
  · exact Or.inl ⟨u, line, c, psin, hg⟩

/-- An outside event starts no statement of the accept callback after line 236. -/
theorem listener_not_started {m : Memory} {e : Event} {line : ListenerLine} {c : ℕ}
    {psin : SockaddrIn} (hr : start t e m = some r) : .listener line c p psin ∉ r.2 := by
  intro hg
  cases start_pushes hr _ hg with
  | calls hg => simp at hg

theorem Accepting.of_start {e : Event} (hr : start t e s.mem = some r)
    (h : Accepting (s.set t r []) p) : Accepting s p := by
  obtain ⟨u, line, c, psin, hg⟩ := h
  exact ⟨u, line, c, psin,
    (Config.mem_set_stack_start hg).resolve_left (listener_not_started hr)⟩

/-- The bufferevent of a closing frame is alive. -/
theorem Closing.alive (hbooks : Books s) (h : Closing s p) : s.mem.heap p ≠ none := by
  obtain ⟨u, ⟨w, hg⟩ | ⟨line, w, hg⟩⟩ := h
  · obtain ⟨b, hb, -⟩ := hbooks.alive_of_under (p := p) hg rfl
    simp [hb]
  · obtain ⟨b, hb, -⟩ := hbooks.alive_of_under (p := p) hg rfl
    simp [hb]

/-- A closing frame after a step was there before it, or an operation failed. -/
theorem Closing.of_exec (hs : s.stack t = f :: post) (hr : exec t o f s.mem = some r)
    (hC : NoEarlyFailure s (.exec t o)) (h : Closing (s.set t r post) p) :
    Closing s p ∨ ((∀ sa, f ≠ .iocpListenerCb sa) ∧ ¬ Accepting s p) := by
  have htop : f ∈ s.stack t := hs ▸ List.mem_cons_self
  obtain ⟨u, ⟨w, hg⟩ | ⟨line, w, hg⟩⟩ := h
  · by_cases hnew : .runEventcb p w ∈ r.2
    · cases exec_pushes hr _ hnew with
      | listenerCall hg => simp at hg
      | readcbCall hg => simp at hg
      | @readFails site q b _ hb hw ho hg =>
          obtain ⟨rfl, -⟩ : p = q ∧ w = .error := by simpa using hg
          exact Or.inr ⟨by simp, hC _ _ p b hs hb (Or.inl ⟨⟨site, rfl⟩, hw⟩) ho⟩
      | writeFails hb hw ho =>
          exact Or.inr ⟨by simp, hC _ _ p _ hs hb (Or.inr ⟨rfl, hw⟩) ho⟩
    · exact Or.inl ⟨u, Or.inl ⟨w, Config.mem_stack_of_notMem hs hg hnew⟩⟩
  · by_cases hnew : .eventcb line p w ∈ r.2
    · cases exec_pushes hr _ hnew with
      | listenerCall hg => simp at hg
      | readcbCall hg => simp at hg
      | readFails hb hw ho hg => simp at hg
      | @eventcb l => exact Or.inl ⟨t, Or.inr ⟨l, w, htop⟩⟩
      | runEventcb hb hcb => exact Or.inl ⟨t, Or.inl ⟨w, htop⟩⟩
    · exact Or.inl ⟨u, Or.inr ⟨line, w, Config.mem_stack_of_notMem hs hg hnew⟩⟩

/-- **Every statement keeps the accept callbacks safe**, provided no operation fails early. -/
theorem AcceptInv.exec (h : AcceptInv s) (hbooks : Books s) (hs : s.stack t = f :: post)
    (hr : exec t o f s.mem = some r) (hC : NoEarlyFailure s (.exec t o)) :
    AcceptInv (s.set t r post) := by
  have htop : f ∈ s.stack t := hs ▸ List.mem_cons_self
  -- a bufferevent being accepted is not freed by this statement
  have hkeep : ∀ {q : Addr} {c : ℕ} {cb : Bool}, Accepting s q →
      s.mem.status q = some ⟨c, false, cb⟩ → ∃ cb', r.1.status q = some ⟨c, false, cb'⟩ := by
    intro q c cb hacc hst
    obtain ⟨cb', -, hst'⟩ := status_stays hbooks hs hr hst fun w hf => by
      subst hf
      exact h.apart q ⟨t, Or.inr ⟨_, w, htop⟩⟩ hacc
    exact ⟨cb', hst'⟩
  refine ⟨fun u line c p psin hg => ?_, fun p hclosing hacc => ?_⟩
  · rcases Config.mem_set_stack.mp hg with ⟨rfl, hg | hg⟩ | ⟨-, hg⟩
    · rcases listener_pushed hr hg with ⟨line', -, rfl⟩ | ⟨-, -, -, hst⟩
      · obtain ⟨cb, hst⟩ := h.own u line' c p psin htop
        exact hkeep ⟨u, line', c, psin, htop⟩ hst
      · exact ⟨false, hst⟩
    · have hmem := hs ▸ List.mem_cons_of_mem f hg
      obtain ⟨cb, hst⟩ := h.own u line c p psin hmem
      exact hkeep ⟨u, line, c, psin, hmem⟩ hst
    · obtain ⟨cb, hst⟩ := h.own u line c p psin hg
      exact hkeep ⟨u, line, c, psin, hg⟩ hst
  · rcases hacc.of_exec hs hr with hacc | ⟨⟨sa, hf⟩, hnone⟩
    · rcases hclosing.of_exec hs hr hC with hclosing | ⟨-, hnot⟩
      · exact h.apart p hclosing hacc
      · exact hnot hacc
    · rcases hclosing.of_exec hs hr hC with hclosing | ⟨hne, -⟩
      · exact hclosing.alive hbooks hnone
      · exact hne sa hf

/-- Every outside event keeps the accept callbacks safe, provided it reports no failure of a
bufferevent being accepted. -/
theorem AcceptInv.start {e : Event} (h : AcceptInv s)
    (hr : start t e s.mem = some r) (hC : NoEarlyFailure s (.start t e)) :
    AcceptInv (s.set t r []) := by
  obtain ⟨-, hstatus⟩ := start_quiet hr
  have hacc : ∀ {p}, Accepting (s.set t r []) p → Accepting s p := Accepting.of_start hr
  refine ⟨fun u line c p psin hg => ?_, fun p hclosing hacc' => ?_⟩
  · rw [Config.set_mem, hstatus]
    exact h.own u line c p psin
      ((Config.mem_set_stack_start hg).resolve_left (listener_not_started hr))
  · obtain ⟨u, ⟨w, hg⟩ | ⟨line, w, hg⟩⟩ := hclosing
    · rcases Config.mem_set_stack_start hg with hg | hg
      · cases start_pushes hr _ hg with
        | fails hb hok hfail => exact hC p _ hb hok hfail (hacc hacc')
        | calls hg => simp at hg
      · exact h.apart p ⟨u, Or.inl ⟨w, hg⟩⟩ (hacc hacc')
    · rcases Config.mem_set_stack_start hg with hg | hg
      · cases start_pushes hr _ hg with
        | calls hg => simp at hg
      · exact h.apart p ⟨u, Or.inr ⟨line, w, hg⟩⟩ (hacc hacc')

end Step

/-- The accept callbacks of every run in which no operation fails early. -/
theorem acceptInv_of_reach {s : State}
    (h : Reach server.step NoEarlyFailure State.init s) : AcceptInv s := by
  have hinv : (Books s ∧ Registry s) ∧ AcceptInv s := by
    refine h.invariant (fun s => (Books s ∧ Registry s) ∧ AcceptInv s)
      ⟨⟨books_init, registry_init⟩, fun t line c p psin hg => ?_, fun p hclosing => ?_⟩
      fun s s' l hI hl hstep => ⟨invariants_step hI.1 hstep, ?_⟩
    · simp [State.init] at hg
    · obtain ⟨t, ⟨w, hg⟩ | ⟨line, w, hg⟩⟩ := hclosing <;> simp [State.init] at hg
    · rcases Program.step_cases hstep with
        ⟨t, o, f, post, r, rfl, hs, hr, rfl⟩ | ⟨t, e, r, rfl, hs, hr, rfl⟩
      · exact hI.2.exec hI.1.1 hs hr hl
      · exact hI.2.start hr hl
  exact hinv.2

/-- **The accept callback never passes a freed bufferevent** in a run in which no operation on
a bufferevent fails before its accept callback has returned. -/
theorem acceptSafe_of_reach {s : State}
    (h : Reach server.step NoEarlyFailure State.init s) : AcceptSafe s := by
  intro t line c p psin post hs _
  obtain ⟨cb, hst⟩ := (acceptInv_of_reach h).own t line c p psin (hs ▸ List.mem_cons_self)
  obtain ⟨b, hb, hstatus⟩ := Option.map_eq_some_iff.mp hst
  exact ⟨b, hb, congrArg Status.conn hstatus, congrArg Status.freed hstatus⟩

/-- Every label of an accept callback whose operations are launched meets the condition. -/
theorem noEarlyFailure_acceptRun (n : ℕ) : ∀ l ∈ acceptRun n, ∀ s, NoEarlyFailure s l := by
  intro l hl s
  rcases List.mem_cons.mp hl with rfl | hl
  · exact fun p b _ _ hp => hp.elim
  · rw [List.eq_of_mem_replicate hl]
    intro f post p b _ _ _ hlaunched
    simp [goodOutcome] at hlaunched

/-- The accept callback of a run without failures, before the greeting. -/
theorem acceptSafe_of_reach_acceptRun :
    ∃ s, run server.step State.init (acceptRun 11) = some s ∧
      (∃ c psin, s.stack 0 = [.listener .l244 c 7 psin]) ∧ AcceptSafe s :=
  ⟨_, rfl, ⟨_, _, rfl⟩,
    acceptSafe_of_reach (reach_of_run (along_of_forall (noEarlyFailure_acceptRun 11) _) rfl)⟩

/-- The first read cannot be launched: `bufferevent_enable` at line 242 runs the event
callback. -/
def enableFailsRun : List (Label Tid Outcome Event) :=
  acceptRun 9 ++ .exec 0 badOutcome :: List.replicate 6 (.exec 0 goodOutcome)

/-- When the first read cannot be launched, line 244 is executed on a bufferevent that has
been freed and destroyed. -/
theorem not_acceptSafe_enableFails :
    ∃ s s', Reach server.step Always State.init s ∧
      (∃ c psin, s.stack 0 = [.listener .l244 c 7 psin]) ∧ s.mem.heap 7 = none ∧
      server.step s (.exec 0 goodOutcome) = some s' ∧ ¬ AcceptSafe s := by
  refine ⟨_, _, reach_of_run (along_always _ enableFailsRun _) rfl, ⟨_, _, rfl⟩, rfl, rfl,
    fun h => ?_⟩
  obtain ⟨b, hb, -⟩ := h 0 .l244 _ 7 _ _ rfl rfl
  have hnone : none = some b := hb
  simp at hnone

/-! ### One accept callback at a time -/

/-- A frame of the accept callback. -/
def Frame.accepts : Frame → Bool
  | .iocpListenerCb _ | .listener _ _ _ _ => true
  | _ => false

/-- The accept callbacks on a stack. -/
def acceptCount (l : List Frame) : ℕ := l.countP Frame.accepts

theorem acceptCount_append (l₁ l₂ : List Frame) :
    acceptCount (l₁ ++ l₂) = acceptCount l₁ + acceptCount l₂ :=
  List.countP_append ..

theorem acceptCount_eq_zero {l : List Frame} (h : ∀ f ∈ l, f.accepts = false) :
    acceptCount l = 0 := by
  refine List.countP_eq_zero.mpr fun f hf => ?_
  simp [h f hf]

theorem acceptCount_pos {l : List Frame} {f : Frame} (hf : f ∈ l) (h : f.accepts = true) :
    0 < acceptCount l :=
  List.countP_pos_iff.mpr ⟨f, hf, h⟩

section Count

variable {t : Tid} {o : Outcome} {m : Memory} {f : Frame} {r : Memory × List Frame}

/-- A statement of the accept callback before line 244 leaves the next one. -/
theorem listener_next {line : ListenerLine} {c : ℕ} {p : Addr} {psin : SockaddrIn}
    (hline : line ≠ .l244) (h : execListener m t line c p psin = some r) :
    ∃ line' pre, r.2 = pre ++ [.listener line' c p psin] ∧ ∀ g ∈ pre, g.accepts = false := by
  cases line with
  | l236 | l238 | l239 =>
      obtain rfl := Option.some.inj h
      exact ⟨_, [], rfl, by simp⟩
  | l240 =>
      rcases Memory.onBev_cases h with ⟨-, rfl⟩ | ⟨b, -, -, rfl⟩
      · exact ⟨_, [], rfl, by simp⟩
      · exact ⟨_, [], rfl, by simp⟩
  | l241 =>
      rcases Memory.onBev_cases h with ⟨-, rfl⟩ | ⟨b, -, -, rfl⟩
      · exact ⟨_, [], rfl, by simp⟩
      · cases b.ok with
        | false => exact ⟨.l242, [.decrefAndUnlock p], rfl, by simp [Frame.accepts]⟩
        | true =>
            exact ⟨.l242, [.considerWriting p, .decrefAndUnlock p], rfl,
              by simp [Frame.accepts]⟩
  | l242 =>
      rcases Memory.onBev_cases h with ⟨-, rfl⟩ | ⟨b, -, -, rfl⟩
      · exact ⟨_, [], rfl, by simp⟩
      · cases b.ok with
        | false => exact ⟨.l244, [.decrefAndUnlock p], rfl, by simp [Frame.accepts]⟩
        | true =>
            exact ⟨.l244, [.considerReading .enable p, .decrefAndUnlock p], rfl,
              by simp [Frame.accepts]⟩
  | l244 => exact absurd rfl hline

/-- Only the accept callback leaves statements of an accept callback. -/
theorem Pushes.accepts {g : Frame} (h : Pushes o m f g) (hf : f.accepts = false) :
    g.accepts = false := by
  cases h with
  | created _ => simp [Frame.accepts] at hf
  | listener _ => simp [Frame.accepts] at hf
  | listenerCall _ => simp [Frame.accepts] at hf
  | readcb => rfl
  | readcbCall hg => rcases hg with rfl | rfl | rfl <;> rfl
  | eventcb => rfl
  | readFails _ _ _ hg => rcases hg with rfl | rfl <;> rfl
  | writeFails _ _ _ => rfl
  | runReadcb _ _ => rfl
  | runWritecb => rfl
  | runEventcb _ _ => rfl

/-- A statement leaves at most as many accept callbacks as it took. -/
theorem acceptCount_exec (h : exec t o f m = some r) : acceptCount r.2 ≤ acceptCount [f] := by
  cases hf : f.accepts with
  | false =>
      rw [acceptCount_eq_zero fun g hg => (exec_pushes h g hg).accepts hf]
      exact Nat.zero_le _
  | true =>
      cases f with
      | iocpListenerCb sa =>
          rcases exec_iocpListenerCb h with ⟨-, rfl⟩ | ⟨p, -, -, rfl⟩
          · exact Nat.zero_le _
          · exact le_refl _
      | listener line c p psin =>
          by_cases hline : line = .l244
          · subst hline
            rw [acceptCount_eq_zero fun g hg => ?_]
            · exact Nat.zero_le _
            · cases exec_pushes h g hg with
              | listener hl => exact absurd rfl hl
              | listenerCall hg => rcases hg with rfl | rfl | rfl <;> rfl
          · obtain ⟨line', pre, hfs, hpre⟩ := listener_next hline h
            rw [hfs, acceptCount_append, acceptCount_eq_zero hpre, Nat.zero_add]
            exact le_refl _
      | _ => simp [Frame.accepts] at hf

/-- The accept callbacks of a thread after a statement. -/
theorem acceptCount_set {s : State} {post : List Frame} (hs : s.stack t = f :: post)
    (hr : exec t o f s.mem = some r) :
    acceptCount ((s.set t r post).stack t) ≤ acceptCount (s.stack t) := by
  have hsplit : s.stack t = [f] ++ post := hs
  rw [Config.set_stack_self, hsplit, acceptCount_append, acceptCount_append]
  exact Nat.add_le_add_right (acceptCount_exec hr) _

/-- A completion starts no accept callback. -/
theorem acceptCount_start {e : Event} (he : ∀ sa, e ≠ .accept sa)
    (hr : start t e m = some r) : acceptCount r.2 = 0 := by
  refine acceptCount_eq_zero fun g hg => ?_
  cases start_pushes hr g hg with
  | accept heq => exact absurd heq (he _)
  | reads _ _ _ => rfl
  | fails _ _ _ => rfl
  | calls hg => rcases hg with rfl | rfl | rfl | rfl <;> rfl

end Count

end IocpEcho
