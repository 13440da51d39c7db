import IocpEcho.AcceptCallback
import IocpEcho.ReadCallback

/-!
# Greeting First

`iocp_listener_cb` enables reading at line 242 and writes the greeting at line 244. Between
the two, a read may complete on another thread and `iocp_conn_readcb` may write a reply, so
the greeting comes second: the order of the two writes is decided by the scheduler.

In every run in which no data of a bufferevent is delivered before its accept callback has
returned, the output of every connection is the greeting followed by replies. The accept
callbacks run one after another on the dispatch thread, which is what keeps the greeting of a
connection that has died from being written to the next one at the same address; and the
reads launched from inside a read callback must not fail, or the reply is written through
`map_Client.end()` (`ReadCallback`).

## Main results

* `greetingFirst_of_reach`: the greeting comes first when no data is delivered early.
* `not_greetingFirst_earlyData`: a client that sends before it is greeted gets its reply
  first.
-/

namespace IocpEcho

open Interleaving

/-- A byte string that `iocp_conn_readcb` passes to `bufferevent_write`. -/
def IsReply (data : List Byte) : Prop :=
  ∃ entry now text, data = reply entry now text

/-- The greeting, then replies. -/
def Greeted (appended : List (List Byte)) : Prop :=
  ∃ replies, appended = message :: replies ∧ ∀ d ∈ replies, IsReply d

/-- The output of every connection is empty or starts with the greeting, and everything after
that is a reply. -/
def GreetingFirst (s : State) : Prop :=
  ∀ p b, s.mem.heap p = some b → b.appended = [] ∨ Greeted b.appended

/-- Accepted sockets are handled by the dispatch thread. -/
def AcceptsOnDispatch (_ : State) : Label Tid Outcome Event → Prop
  | .start t (.accept _) => t = 0
  | _ => True

/-- No data of a bufferevent is delivered to the read callback before its accept callback has
returned. -/
def NoEarlyData (s : State) : Label Tid Outcome Event → Prop
  | .start _ e => ∀ p b, s.mem.heap p = some b → b.ok = true → e.Delivers p → ¬ Accepting s p
  | .exec _ _ => True

/-- The condition under which the greeting comes first. -/
def GreetsInTime (s : State) (l : Label Tid Outcome Event) : Prop :=
  AcceptsOnDispatch s l ∧ NoEarlyData s l ∧ DrainLaunches s l

/-! ### What a statement appends -/

/-- Nothing is appended to any output. -/
def Keeps (m m' : Memory) : Prop :=
  ∀ q b', m'.heap q = some b' → ∃ b, m.heap q = some b ∧ b'.appended = b.appended

/-- One byte string is appended to the output of `q`. -/
def AppendsTo (m m' : Memory) (q : Addr) (data : List Byte) : Prop :=
  ∃ b b', m.heap q = some b ∧ m'.heap = Function.update m.heap q (some b') ∧
    b'.appended = b.appended ++ [data]

section Appends

variable {t : Tid} {o : Outcome} {m : Memory} {f : Frame} {p : Addr} {r : Memory × List Frame}

theorem Keeps.refl (m : Memory) : Keeps m m := fun _ b' hb' => ⟨b', hb', rfl⟩

theorem keeps_setBev {b : Bufferevent} {b' : Option Bufferevent} (hb : m.heap p = some b)
    (h : ∀ b'', b' = some b'' → b''.appended = b.appended) : Keeps m (m.setBev p b') := by
  intro q b'' hq
  rcases heap_update_cases (m := m) rfl hq with ⟨rfl, hb''⟩ | ⟨-, hq⟩
  · exact ⟨b, hb, h b'' hb''⟩
  · exact ⟨b'', hq, rfl⟩

theorem keeps_readBev {g : Bufferevent → List Print × List Frame}
    (h : m.readBev t p g = some r) : Keeps m r.1 := by
  rcases Memory.readBev_cases h with ⟨-, rfl⟩ | ⟨b, -, -, rfl⟩
  · exact Keeps.refl m
  · exact Keeps.refl m

theorem keeps_onBev {dead : List Frame} {g : Bufferevent → Option Bufferevent × List Frame}
    (hg : ∀ b b', (g b).1 = some b' → b'.appended = b.appended)
    (h : m.onBev t p dead g = some r) : Keeps m r.1 := by
  rcases Memory.onBev_cases h with ⟨-, rfl⟩ | ⟨b, hb, -, rfl⟩
  · exact Keeps.refl m
  · exact keeps_setBev hb (hg b)

theorem keeps_decref (b b' : Bufferevent) (h : b.decref = some b') :
    b'.appended = b.appended := by
  rw [Bufferevent.decref] at h
  split at h
  · simp at h
  · obtain rfl := Option.some.inj h
    rfl

/-- `bufferevent_write` on a destroyed bufferevent, or one that appends. -/
theorem appendsTo_write {data : List Byte}
    (h : m.onBev t p [] (buffereventWrite t p data) = some r) :
    (m.heap p = none ∧ r.1 = m) ∨ AppendsTo m r.1 p data := by
  rcases Memory.onBev_cases h with ⟨hp, rfl⟩ | ⟨b, hb, -, rfl⟩
  · exact Or.inl ⟨hp, rfl⟩
  · exact Or.inr ⟨b, _, hb, rfl, rfl⟩

/-- The address that line 194 writes to. -/
def writeTarget (m : Memory) (o : Outcome) (itFind : Option Addr) : Addr :=
  (itFind.filter fun k => k ∈ m.mapClient).getD o.stray

/-- What a statement appends: nothing, unless it creates a bufferevent, writes the greeting or
writes a reply. -/
inductive Appends (o : Outcome) (m : Memory) : Frame → Memory × List Frame → Prop
  | keeps {f : Frame} {r : Memory × List Frame} (h : Keeps m r.1) : Appends o m f r
  | create {sa : SockaddrIn} {q : Addr} {b : Bufferevent} {r : Memory × List Frame}
      (hq : m.heap q = none) (hheap : r.1.heap = Function.update m.heap q (some b))
      (happ : b.appended = []) (hfs : r.2 = [.listener .l236 m.nextConn q sa]) :
      Appends o m (.iocpListenerCb sa) r
  | greeting {c : ℕ} {q : Addr} {psin : SockaddrIn} {r : Memory × List Frame}
      (h : AppendsTo m r.1 q message) : Appends o m (.listener .l244 c q psin) r
  | reply {itFind : Option Addr} {a : List Byte} {q : Addr} {r : Memory × List Frame}
      (h : AppendsTo m r.1 (writeTarget m o itFind) (a ++ [0])) :
      Appends o m (.readcb (.l194 itFind a) q) r

/-- A call that keeps what has been appended. -/
theorem appends_onBev {dead : List Frame} {g : Bufferevent → Option Bufferevent × List Frame}
    (hg : ∀ b b', (g b).1 = some b' → b'.appended = b.appended)
    (h : m.onBev t p dead g = some r) : Appends o m f r :=
  Appends.keeps (keeps_onBev hg h)

theorem appends_listener {line : ListenerLine} {c : ℕ} {psin : SockaddrIn}
    (h : execListener m t line c p psin = some r) :
    Appends o m (.listener line c p psin) r := by
  cases line with
  | l236 | l238 | l239 =>
      obtain rfl := Option.some.inj h
      exact Appends.keeps (Keeps.refl m)
  | l240 | l241 | l242 =>
      refine appends_onBev (fun b b' hb' => ?_) h
      obtain rfl := Option.some.inj hb'
      rfl
  | l244 =>
      rcases appendsTo_write h with ⟨-, hm⟩ | happ
      · exact Appends.keeps (hm ▸ Keeps.refl m)
      · exact Appends.greeting happ

theorem appends_readcb {line : ReadLine} (h : execReadcb m t o p line = some r) :
    Appends o m (.readcb line p) r := by
  cases line with
  | l162 => exact Appends.keeps (keeps_readBev h)
  | l171 =>
      refine appends_onBev (fun b b' hb' => ?_) h
      by_cases hin : b.input = []
      · simp only [if_pos hin] at hb'
        obtain rfl := Option.some.inj hb'
        rfl
      · simp only [if_neg hin] at hb'
        obtain rfl := Option.some.inj hb'
        rfl
  | l173 buf =>
      obtain rfl := Option.some.inj h
      exact Appends.keeps (Keeps.refl m)
  | l177 buf itFind =>
      obtain rfl := Option.some.inj h
      exact Appends.keeps (Keeps.refl m)
  | l194 itFind a =>
      rcases appendsTo_write h with ⟨-, hm⟩ | happ
      · exact Appends.keeps (hm ▸ Keeps.refl m)
      · exact Appends.reply happ

theorem appends_eventcb {line : EventLine} {w : What}
    (h : execEventcb m t p w line = some r) : Appends o m (.eventcb line p w) r := by
  cases line with
  | l209 | l218 =>
      obtain rfl := Option.some.inj h
      exact Appends.keeps (Keeps.refl m)
  | l219 =>
      refine appends_onBev (fun b b' hb' => ?_) h
      exact keeps_decref { b with callbacks := false, ok := false, freed := true } b' hb'

/-- **What a statement appends.** -/
theorem exec_appends (h : exec t o f m = some r) : Appends o m f r := by
  cases f with
  | iocpListenerCb sa =>
      rcases exec_iocpListenerCb h with ⟨-, rfl⟩ | ⟨p, -, hp, rfl⟩
      · exact Appends.keeps (Keeps.refl m)
      · exact Appends.create hp rfl rfl rfl
  | listener line c p psin => exact appends_listener h
  | readcb line p => exact appends_readcb h
  | writecb p => exact Appends.keeps (keeps_readBev h)
  | eventcb line p w => exact appends_eventcb h
  | considerReading site p =>
      refine appends_onBev (fun b b' hb' => ?_) h
      rw [bevAsyncConsiderReading] at hb'
      split at hb'
      · split at hb'
        · obtain rfl := Option.some.inj hb'
          rfl
        · obtain rfl := Option.some.inj hb'
          rfl
      · obtain rfl := Option.some.inj hb'
        rfl
  | considerWriting p =>
      refine appends_onBev (fun b b' hb' => ?_) h
      rw [bevAsyncConsiderWriting] at hb'
      split at hb'
      · split at hb'
        · obtain rfl := Option.some.inj hb'
          rfl
        · obtain rfl := Option.some.inj hb'
          rfl
      · obtain rfl := Option.some.inj hb'
        rfl
  | runReadcb p => exact Appends.keeps (keeps_readBev h)
  | runWritecb p => exact Appends.keeps (keeps_readBev h)
  | runEventcb p w => exact Appends.keeps (keeps_readBev h)
  | decref p => exact appends_onBev keeps_decref h
  | decrefAndUnlock p =>
      refine appends_onBev (fun b b' hb' => ?_) h
      simp only [Bufferevent.decrefAndUnlock] at hb'
      split at hb'
      · simp at hb'
      · obtain rfl := Option.some.inj hb'
        rfl

end Appends

/-! ### The greeting invariant -/

/-- While a bufferevent is being accepted nothing has been appended to it; afterwards it has
been greeted. Read callbacks run only afterwards, and what they write is a reply. -/
structure GreetInv (s : State) : Prop where
  dispatch : ∀ t, t ≠ 0 → acceptCount (s.stack t) = 0
  single : ∀ t, acceptCount (s.stack t) ≤ 1
  silent : ∀ p b, s.mem.heap p = some b → Accepting s p → b.appended = []
  greeted : ∀ p b, s.mem.heap p = some b → ¬ Accepting s p → Greeted b.appended
  later : ∀ t p, (.runReadcb p ∈ s.stack t ∨ ∃ line, .readcb line p ∈ s.stack t) →
    ¬ Accepting s p
  replies : ∀ t itFind a p, .readcb (.l194 itFind a) p ∈ s.stack t → IsReply (a ++ [0])

section Step

variable {s : State} {t : Tid} {o : Outcome} {f : Frame} {post : List Frame}
  {r : Memory × List Frame} {p : Addr}

/-- The accept callback that executes is the only one. -/
theorem GreetInv.sole (h : GreetInv s) (hs : s.stack t = f :: post) (hf : f.accepts = true)
    {u : Tid} {g : Frame} (hg : g ∈ s.stack u) (hga : g.accepts = true) :
    u = t ∧ g ∉ post := by
  have hthread : ∀ {v : Tid} {f' : Frame}, f' ∈ s.stack v → f'.accepts = true → v = 0 := by
    intro v f' hf' hacc
    by_contra hv
    have hpos := acceptCount_pos hf' hacc
    rw [h.dispatch v hv] at hpos
    omega
  have ht := hthread (hs ▸ List.mem_cons_self : f ∈ s.stack t) hf
  have hu := hthread hg hga
  refine ⟨hu.trans ht.symm, fun hpost => ?_⟩
  have hcount := h.single t
  have hone : acceptCount [f] = 1 := by simp [acceptCount, hf]
  have hpos := acceptCount_pos hpost hga
  have hsplit : s.stack t = [f] ++ post := hs
  rw [hsplit, acceptCount_append, hone] at hcount
  omega

/-- While the dispatch thread creates a bufferevent, no other one is being accepted. -/
theorem GreetInv.not_accepting (h : GreetInv s) {sa : SockaddrIn}
    (hs : s.stack t = .iocpListenerCb sa :: post) (q : Addr) : ¬ Accepting s q := by
  rintro ⟨u, line, c, psin, hg⟩
  obtain ⟨rfl, hpost⟩ := h.sole hs rfl hg rfl
  rw [hs] at hg
  rcases List.mem_cons.mp hg with hg | hg
  · simp at hg
  · exact hpost hg

/-- A bufferevent whose accept callback executes line 244 is not being accepted by any other
frame. -/
theorem GreetInv.accepting_after_l244 (h : GreetInv s) {c : ℕ} {q : Addr}
    {psin : SockaddrIn} (hs : s.stack t = .listener .l244 c q psin :: post)
    (hr : exec t o (.listener .l244 c q psin) s.mem = some r) (q' : Addr) :
    ¬ Accepting (s.set t r post) q' := by
  rintro ⟨u, line, c', psin', hg⟩
  rcases Config.mem_set_stack.mp hg with ⟨rfl, hg | hg⟩ | ⟨hu, hg⟩
  · rcases listener_pushed hr hg with ⟨line', hline, hf⟩ | ⟨hf, -⟩
    · exact hline (Frame.listener.inj hf).1.symm
    · simp at hf
  · exact (h.sole hs rfl (hs ▸ List.mem_cons_of_mem _ hg) rfl).2 hg
  · exact hu (h.sole hs rfl hg rfl).1

/-- An accept callback before a step runs after it, unless the step was its line 244. -/
theorem accepting_stays (hs : s.stack t = f :: post) (hr : exec t o f s.mem = some r)
    (h : Accepting s p) (hne : ∀ c psin, f ≠ .listener .l244 c p psin) :
    Accepting (s.set t r post) p := by
  obtain ⟨u, line, c, psin, hg⟩ := h
  have hs' : s.stack t = [f] ++ post := hs
  by_cases hf : .listener line c p psin = f
  · subst hf
    have hline : line ≠ .l244 := by
      rintro rfl
      exact hne c psin rfl
    obtain ⟨line', pre, hfs, -⟩ := listener_next hline hr
    refine ⟨t, line', c, psin, Config.mem_set_stack.mpr (Or.inl ⟨rfl, Or.inl ?_⟩)⟩
    rw [hfs]
    exact List.mem_append_right _ List.mem_cons_self
  · refine ⟨u, line, c, psin, Config.mem_set_stack_of_mem hs' hg fun _ hgf => ?_⟩
    exact hf (List.mem_singleton.mp hgf)

/-- The read callback writes to its own bufferevent. -/
theorem Reading.writeTarget_eq (h : Reading s) {itFind : Option Addr} {a : List Byte}
    (hg : .readcb (.l194 itFind a) p ∈ s.stack t) : writeTarget s.mem o itFind = p := by
  have hfound : itFind = some p := h.found t _ p hg
  obtain ⟨hmem, -⟩ := h.registered t _ p hg
  rw [hfound, writeTarget, Option.filter_some, if_pos (decide_eq_true hmem)]
  rfl

/-- Appending a reply to a greeted output. -/
theorem Greeted.append {l : List (List Byte)} {d : List Byte} (h : Greeted l)
    (hd : IsReply d) : Greeted (l ++ [d]) := by
  obtain ⟨rs, rfl, hrs⟩ := h
  refine ⟨rs ++ [d], rfl, fun d' hd' => ?_⟩
  rcases List.mem_append.mp hd' with hd' | hd'
  · exact hrs d' hd'
  · rw [List.mem_singleton.mp hd']
    exact hd

/-- What an output owes to the greeting: nothing while its bufferevent is being accepted,
greeting and replies afterwards. -/
def OutputOk (s : State) (p : Addr) (b : Bufferevent) : Prop :=
  (Accepting s p → b.appended = []) ∧ (¬ Accepting s p → Greeted b.appended)

/-- A bufferevent that existed before the step and is being accepted after it was being
accepted before. -/
theorem accepting_before (hs : s.stack t = f :: post) (hr : exec t o f s.mem = some r)
    {b : Bufferevent} (hb : s.mem.heap p = some b) (hacc : Accepting (s.set t r post) p) :
    Accepting s p := by
  rcases hacc.of_exec hs hr with hacc | ⟨-, hnone⟩
  · exact hacc
  · rw [hnone] at hb
    simp at hb

/-- A statement that appends nothing. -/
theorem GreetInv.outputs_keeps (h : GreetInv s) (hs : s.stack t = f :: post)
    (hr : exec t o f s.mem = some r) (hkeeps : Keeps s.mem r.1) {b' : Bufferevent}
    (hb' : r.1.heap p = some b') : OutputOk (s.set t r post) p b' := by
  obtain ⟨b, hb, happ⟩ := hkeeps p b' hb'
  refine ⟨fun hacc => ?_, fun hacc => ?_⟩
  · rw [happ]
    exact h.silent p b hb (accepting_before hs hr hb hacc)
  · rw [happ]
    refine h.greeted p b hb fun hbefore => ?_
    by_cases hline : ∃ c psin, f = .listener .l244 c p psin
    · obtain ⟨c, psin, rfl⟩ := hline
      -- line 244 does append to a living bufferevent
      rcases appendsTo_write hr with ⟨hnone, -⟩ | ⟨b₁, b₂, hb₁, hheap, happ'⟩
      · rw [hnone] at hb
        simp at hb
      · rw [hheap, Function.update_self] at hb'
        obtain rfl := Option.some.inj hb'
        obtain rfl := Option.some.inj (hb.symm.trans hb₁)
        rw [happ] at happ'
        simp at happ'
    · exact hacc (accepting_stays hs hr hbefore fun c psin hf => hline ⟨c, psin, hf⟩)

/-- The creation of a bufferevent. -/
theorem GreetInv.outputs_create (h : GreetInv s) {sa : SockaddrIn} {q : Addr}
    {b₁ b' : Bufferevent} (hs : s.stack t = .iocpListenerCb sa :: post)
    (hr : exec t o (.iocpListenerCb sa) s.mem = some r)
    (hheap : r.1.heap = Function.update s.mem.heap q (some b₁)) (happ : b₁.appended = [])
    (hfs : r.2 = [.listener .l236 s.mem.nextConn q sa]) (hb' : r.1.heap p = some b') :
    OutputOk (s.set t r post) p b' := by
  rcases heap_update_cases hheap hb' with ⟨rfl, hnew⟩ | ⟨hqp, hb⟩
  · obtain rfl := Option.some.inj hnew
    refine ⟨fun _ => happ, fun hacc => absurd ?_ hacc⟩
    refine ⟨t, .l236, s.mem.nextConn, sa,
      Config.mem_set_stack.mpr (Or.inl ⟨rfl, Or.inl ?_⟩)⟩
    rw [hfs]
    exact List.mem_cons_self
  · have hnot := h.not_accepting hs p
    exact ⟨fun hacc => absurd (accepting_before hs hr hb hacc) hnot,
      fun _ => h.greeted p b' hb hnot⟩

/-- The greeting. -/
theorem GreetInv.outputs_greeting (h : GreetInv s) {c : ℕ} {q : Addr} {psin : SockaddrIn}
    {b' : Bufferevent} (hs : s.stack t = .listener .l244 c q psin :: post)
    (hr : exec t o (.listener .l244 c q psin) s.mem = some r)
    (happ : AppendsTo s.mem r.1 q message) (hb' : r.1.heap p = some b') :
    OutputOk (s.set t r post) p b' := by
  obtain ⟨b, b₁, hb, hheap, happ⟩ := happ
  refine ⟨fun hacc => absurd hacc (h.accepting_after_l244 hs hr p), fun _ => ?_⟩
  rcases heap_update_cases hheap hb' with ⟨rfl, hnew⟩ | ⟨hqp, hb'⟩
  · obtain rfl := Option.some.inj hnew
    rw [happ, h.silent p b hb ⟨t, .l244, c, psin, hs ▸ List.mem_cons_self⟩]
    exact ⟨[], rfl, by simp⟩
  · refine h.greeted p b' hb' fun ⟨u, line, c', psin', hg⟩ => ?_
    obtain ⟨rfl, hpost⟩ := h.sole hs rfl hg rfl
    rw [hs] at hg
    rcases List.mem_cons.mp hg with hg | hg
    · exact hqp (Frame.listener.inj hg).2.2.1
    · exact hpost hg

/-- A reply, which goes to the connection of the read callback itself. -/
theorem GreetInv.outputs_reply (h : GreetInv s) (hread : Reading s) {itFind : Option Addr}
    {a : List Byte} {q : Addr} {b' : Bufferevent}
    (hs : s.stack t = .readcb (.l194 itFind a) q :: post)
    (hr : exec t o (.readcb (.l194 itFind a) q) s.mem = some r)
    (happ : AppendsTo s.mem r.1 (writeTarget s.mem o itFind) (a ++ [0]))
    (hb' : r.1.heap p = some b') : OutputOk (s.set t r post) p b' := by
  have htop : .readcb (.l194 itFind a) q ∈ s.stack t := hs ▸ List.mem_cons_self
  rw [hread.writeTarget_eq htop] at happ
  obtain ⟨b, b₁, hb, hheap, happ⟩ := happ
  rcases heap_update_cases hheap hb' with ⟨rfl, hnew⟩ | ⟨hqp, hb'⟩
  · obtain rfl := Option.some.inj hnew
    have hnot : ¬ Accepting s p := h.later t p (Or.inr ⟨_, htop⟩)
    refine ⟨fun hacc => absurd (accepting_before hs hr hb hacc) hnot, fun _ => ?_⟩
    rw [happ]
    exact (h.greeted p b hb hnot).append (h.replies t itFind a p htop)
  · refine ⟨fun hacc => h.silent p b' hb' (accepting_before hs hr hb' hacc), fun hacc => ?_⟩
    exact h.greeted p b' hb' fun hbefore => hacc (accepting_stays hs hr hbefore (by simp))

/-- What has been appended after a statement. -/
theorem GreetInv.outputs_exec (h : GreetInv s) (hread : Reading s)
    (hs : s.stack t = f :: post) (hr : exec t o f s.mem = some r) {b' : Bufferevent}
    (hb' : r.1.heap p = some b') : OutputOk (s.set t r post) p b' := by
  cases exec_appends hr with
  | keeps hkeeps => exact h.outputs_keeps hs hr hkeeps hb'
  | create _ hheap happ hfs => exact h.outputs_create hs hr hheap happ hfs hb'
  | greeting happ => exact h.outputs_greeting hs hr happ hb'
  | reply happ => exact h.outputs_reply hread hs hr happ hb'

/-- The read callbacks after a statement run on bufferevents that are not being accepted. -/
theorem GreetInv.later_exec (h : GreetInv s) (hbooks : Books s) (hs : s.stack t = f :: post)
    (hr : exec t o f s.mem = some r) {u : Tid}
    (hg : .runReadcb p ∈ (s.set t r post).stack u ∨
      ∃ line, .readcb line p ∈ (s.set t r post).stack u) :
    ¬ Accepting (s.set t r post) p := by
  -- a frame of the callback stood on a stack before the step, under the lock of `p`
  have hbefore : ∃ v, ∃ g ∈ s.stack v, g.under = some p ∧
      (g = .runReadcb p ∨ ∃ line, g = .readcb line p) := by
    rcases hg with hg | ⟨line, hg⟩
    · refine ⟨u, _, Config.mem_stack_of_notMem hs hg fun hnew => ?_, rfl, Or.inl rfl⟩
      cases exec_pushes hr _ hnew with
      | listenerCall hg => simp at hg
      | readcbCall hg => simp at hg
      | readFails hb hw ho hg => simp at hg
    · by_cases hnew : .readcb line p ∈ r.2
      · have htop : f ∈ s.stack t := hs ▸ List.mem_cons_self
        rcases readcb_pushed hr hnew with ⟨rfl, -⟩ | ⟨line', rfl⟩
        · exact ⟨t, _, htop, rfl, Or.inl rfl⟩
        · exact ⟨t, _, htop, rfl, Or.inr ⟨line', rfl⟩⟩
      · exact ⟨u, _, Config.mem_stack_of_notMem hs hg hnew, rfl, Or.inr ⟨line, rfl⟩⟩
  obtain ⟨v, g, hmem, hunder, hkind⟩ := hbefore
  have hnot : ¬ Accepting s p := by
    rcases hkind with rfl | ⟨line, rfl⟩
    · exact h.later v p (Or.inl hmem)
    · exact h.later v p (Or.inr ⟨line, hmem⟩)
  intro hacc
  rcases hacc.of_exec hs hr with hacc | ⟨-, hnone⟩
  · exact hnot hacc
  · obtain ⟨b, hb, -⟩ := hbooks.alive_of_under hmem hunder
    rw [hnone] at hb
    simp at hb

/-- What the read callback writes at line 194 is a reply. -/
theorem isReply_pushed {m : Memory} {itFind : Option Addr} {a : List Byte}
    (hr : exec t o f m = some r) (hg : .readcb (.l194 itFind a) p ∈ r.2) :
    IsReply (a ++ [0]) := by
  rcases readcb_pushed hr hg with ⟨-, -, hline, -⟩ | ⟨line', rfl⟩
  · simp at hline
  · cases line' with
    | l162 =>
        rcases Memory.readBev_cases hr with ⟨-, rfl⟩ | ⟨b, -, -, rfl⟩
        · simp at hg
        · by_cases hin : b.input = [] <;> simp [hin] at hg
    | l171 =>
        rcases Memory.onBev_cases hr with ⟨-, rfl⟩ | ⟨b, -, -, rfl⟩
        · simp at hg
        · by_cases hin : b.input = [] <;> simp [hin] at hg
    | l173 buf =>
        obtain rfl := Option.some.inj hr
        simp at hg
    | l177 buf itFind' =>
        obtain rfl := Option.some.inj hr
        simp only [List.mem_singleton, Frame.readcb.injEq, ReadLine.l194.injEq,
          and_true] at hg
        rw [hg.2]
        exact ⟨_, _, _, rfl⟩
    | l194 itFind' a' =>
        cases exec_pushes hr _ hg with
        | readcb =>
            rcases Memory.onBev_cases hr with ⟨-, rfl⟩ | ⟨b, -, -, rfl⟩
            · simp at hg
            · simp [buffereventWrite] at hg
        | readcbCall hg => simp at hg

/-- **Every statement keeps the greeting first.** -/
theorem GreetInv.exec (h : GreetInv s) (hbooks : Books s) (hread : Reading s)
    (hs : s.stack t = f :: post) (hr : exec t o f s.mem = some r) :
    GreetInv (s.set t r post) := by
  have hcount := acceptCount_set hs hr
  refine ⟨fun u hu => ?_, fun u => ?_, fun p b hb hacc => ?_, fun p b hb hacc => ?_,
    fun u p hg => h.later_exec hbooks hs hr hg, fun u itFind a p hg => ?_⟩
  · by_cases hut : u = t
    · subst hut
      rw [h.dispatch u hu] at hcount
      exact Nat.le_zero.mp hcount
    · rw [Config.set_stack_of_ne _ hut]
      exact h.dispatch u hu
  · by_cases hut : u = t
    · subst hut
      exact hcount.trans (h.single u)
    · rw [Config.set_stack_of_ne _ hut]
      exact h.single u
  · exact (h.outputs_exec hread hs hr hb).1 hacc
  · exact (h.outputs_exec hread hs hr hb).2 hacc
  · rcases Config.mem_set_stack.mp hg with ⟨rfl, hg | hg⟩ | ⟨-, hg⟩
    · exact isReply_pushed hr hg
    · exact h.replies u itFind a p (hs ▸ List.mem_cons_of_mem f hg)
    · exact h.replies u itFind a p hg

/-- Every outside event keeps the greeting first, provided it is accepted on the dispatch
thread and delivers no data of a bufferevent being accepted. -/
theorem GreetInv.start {e : Event} (h : GreetInv s) (hs : s.stack t = [])
    (hr : start t e s.mem = some r) (hdispatch : AcceptsOnDispatch s (.start t e))
    (hdata : NoEarlyData s (.start t e)) : GreetInv (s.set t r []) := by
  have hacc : ∀ {p}, Accepting (s.set t r []) p ↔ Accepting s p := by
    refine ⟨Accepting.of_start hr, fun ⟨u, line, c, psin, hg⟩ => ?_⟩
    have hs' : s.stack t = [] ++ [] := hs
    exact ⟨u, line, c, psin, Config.mem_set_stack_of_mem hs' hg fun _ => List.not_mem_nil⟩
  have hkeeps : Keeps s.mem r.1 := by
    rcases start_cases hr with ⟨sa, -, rfl⟩ | ⟨p, b, b', pre, hb, -, rfl, hcomp⟩
    · exact Keeps.refl s.mem
    · refine keeps_setBev hb fun b'' hb'' => ?_
      obtain rfl := Option.some.inj hb''
      exact hcomp.appended
  have hcount : (t ≠ 0 → acceptCount r.2 = 0) ∧ acceptCount r.2 ≤ 1 := by
    by_cases he : ∃ sa, e = .accept sa
    · obtain ⟨sa, rfl⟩ := he
      obtain rfl := Option.some.inj hr
      exact ⟨fun ht => absurd hdispatch ht, le_refl _⟩
    · have hzero := acceptCount_start (fun sa hsa => he ⟨sa, hsa⟩) hr
      exact ⟨fun _ => hzero, hzero.le.trans (Nat.zero_le 1)⟩
  refine ⟨fun u hu => ?_, fun u => ?_, fun p b hb hp => ?_, fun p b hb hp => ?_,
    fun u p hg => ?_, fun u itFind a p hg => ?_⟩
  · by_cases hut : u = t
    · subst hut
      rw [Config.set_stack_self, List.append_nil]
      exact hcount.1 hu
    · rw [Config.set_stack_of_ne _ hut]
      exact h.dispatch u hu
  · by_cases hut : u = t
    · subst hut
      rw [Config.set_stack_self, List.append_nil]
      exact hcount.2
    · rw [Config.set_stack_of_ne _ hut]
      exact h.single u
  · obtain ⟨b₀, hb₀, happ⟩ := hkeeps p b hb
    rw [happ]
    exact h.silent p b₀ hb₀ (hacc.mp hp)
  · obtain ⟨b₀, hb₀, happ⟩ := hkeeps p b hb
    rw [happ]
    exact h.greeted p b₀ hb₀ fun hc => hp (hacc.mpr hc)
  · rw [hacc]
    rcases hg with hg | ⟨line, hg⟩
    · rcases Config.mem_set_stack_start hg with hg | hg
      · cases start_pushes hr _ hg with
        | reads hb hok hdel => exact hdata p _ hb hok hdel
        | calls hg => simp at hg
      · exact h.later u p (Or.inl hg)
    · rcases Config.mem_set_stack_start hg with hg | hg
      · cases start_pushes hr _ hg with
        | calls hg => simp at hg
      · exact h.later u p (Or.inr ⟨line, hg⟩)
  · rcases Config.mem_set_stack_start hg with hg | hg
    · cases start_pushes hr _ hg with
      | calls hg => simp at hg
    · exact h.replies u itFind a p hg

end Step

/-- The greeting invariant of the initial state. -/
theorem greetInv_init : GreetInv State.init where
  dispatch _ _ := rfl
  single _ := Nat.zero_le 1
  silent p b hb := by simp [State.init] at hb
  greeted p b hb := by simp [State.init] at hb
  later t p hg := by simp [State.init] at hg
  replies t itFind a p hg := by simp [State.init] at hg

/-- The greeting invariant in every run in which no data is delivered early. -/
theorem greetInv_of_reach {s : State} (h : Reach server.step GreetsInTime State.init s) :
    GreetInv s := by
  have hinv : ((Books s ∧ Registry s) ∧ Reading s) ∧ GreetInv s := by
    refine h.invariant (fun s => ((Books s ∧ Registry s) ∧ Reading s) ∧ GreetInv s)
      ⟨⟨⟨books_init, registry_init⟩, reading_init⟩, greetInv_init⟩
      fun s s' l hI hl hstep => ?_
    obtain ⟨⟨⟨hbooks, hreg⟩, hread⟩, hgreet⟩ := hI
    obtain ⟨hdispatch, hdata, hdrain⟩ := hl
    refine ⟨⟨invariants_step ⟨hbooks, hreg⟩ hstep,
      reading_step hbooks hreg hread hdrain hstep⟩, ?_⟩
    rcases Program.step_cases hstep with
      ⟨t, o, f, post, r, rfl, hs, hr, rfl⟩ | ⟨t, e, r, rfl, hs, hr, rfl⟩
    · exact hgreet.exec hbooks hread hs hr
    · exact hgreet.start hs hr hdispatch hdata
  exact hinv.2

/-- **The greeting comes first** in every run in which the accept callbacks run on the
dispatch thread, no data of a bufferevent is delivered before its accept callback has
returned, and the reads launched from inside a read callback succeed. -/
theorem greetingFirst_of_reach {s : State}
    (h : Reach server.step GreetsInTime State.init s) : GreetingFirst s := by
  intro p b hb
  have hgreet := greetInv_of_reach h
  by_cases hacc : Accepting s p
  · exact Or.inl (hgreet.silent p b hb hacc)
  · exact Or.inr (hgreet.greeted p b hb hacc)

/-- Every label of an accept callback whose operations are launched meets the condition. -/
theorem greetsInTime_acceptRun (n : ℕ) : ∀ l ∈ acceptRun n, ∀ s, GreetsInTime s l := by
  intro l hl s
  rcases List.mem_cons.mp hl with rfl | hl
  · exact ⟨rfl, fun p b _ _ hp => hp.elim, trivial⟩
  · rw [List.eq_of_mem_replicate hl]
    exact ⟨trivial, trivial, fun p b post _ _ _ => rfl⟩

/-- Once the accept callback of the dispatch thread has returned, nothing is being
accepted. -/
theorem not_accepting_of_idle {s : State} (h : GreetInv s) (hs : s.stack 0 = []) (p : Addr) :
    ¬ Accepting s p := by
  rintro ⟨t, line, c, psin, hg⟩
  by_cases ht : t = 0
  · subst ht
    rw [hs] at hg
    simp at hg
  · have hpos := acceptCount_pos hg rfl
    rw [h.dispatch t ht] at hpos
    omega

/-- A completion while nothing is being accepted meets the condition. -/
theorem greetsInTime_complete {s : State} (h : ∀ p, ¬ Accepting s p) (t : Tid) (p : Addr)
    (data : List Byte) (ok : Bool) : GreetsInTime s (.start t (.readComplete p data ok)) :=
  ⟨trivial, fun q _ _ _ _ => h q, trivial⟩

/-- A chunk that arrives after the accept callback has returned is answered after the
greeting. -/
theorem greetingFirst_of_reach_readRun :
    ∃ s, run server.step State.init (readRun 8) = some s ∧
      (∃ b a, s.mem.heap 7 = some b ∧ b.appended = [message, a ++ [0]]) ∧
      GreetingFirst s := by
  have haccept : Reach server.step GreetsInTime State.init _ :=
    reach_of_run (along_of_forall (greetsInTime_acceptRun 14) _) rfl
  have hidle := not_accepting_of_idle (greetInv_of_reach haccept) rfl
  have hstart := haccept.step (greetsInTime_complete hidle 1 7 [97, 0] true) rfl
  have hexec : ∀ l ∈ List.replicate 8 (Label.exec 1 goodOutcome), ∀ s, GreetsInTime s l := by
    intro l hl s
    rw [List.eq_of_mem_replicate hl]
    exact ⟨trivial, trivial, fun p b post _ _ _ => rfl⟩
  have hread := hstart.trans (reach_of_run (along_of_forall hexec _) rfl)
  exact ⟨_, rfl, ⟨_, _, rfl, rfl⟩, greetingFirst_of_reach hread⟩

/-- A chunk arrives between lines 242 and 244, and its callback runs to the end. -/
def earlyDataRun : List (Label Tid Outcome Event) :=
  acceptRun 11 ++ .start 1 (.readComplete 7 [97, 0] true) ::
    List.replicate 8 (.exec 1 goodOutcome)

/-- The run accepts on the dispatch thread. -/
theorem acceptsOnDispatch_earlyDataRun : ∀ l ∈ earlyDataRun, ∀ s, AcceptsOnDispatch s l := by
  intro l hl s
  simp only [earlyDataRun, acceptRun, List.mem_append, List.mem_cons, List.mem_replicate] at hl
  rcases hl with (rfl | ⟨-, rfl⟩) | rfl | ⟨-, rfl⟩
  · rfl
  · trivial
  · trivial
  · trivial

/-- A client that sends before it is greeted gets its reply before the greeting. -/
theorem not_greetingFirst_earlyData :
    ∃ s b a, Reach server.step AcceptsOnDispatch State.init s ∧
      (∃ c psin, s.stack 0 = [.listener .l244 c 7 psin]) ∧ s.mem.heap 7 = some b ∧
      b.appended = [a ++ [0]] ∧ ¬ GreetingFirst s := by
  have hlast : ∀ a : List Byte, ∀ rs, [a ++ [0]] ≠ message :: rs := by
    intro a rs hc
    have hmem : (0 : Byte) ∈ message := by
      rw [← (List.cons.inj hc).1]
      simp
    exact absurd hmem (by decide)
  refine ⟨_, _, _, reach_of_run (along_of_forall acceptsOnDispatch_earlyDataRun _) rfl,
    ⟨_, _, rfl⟩, rfl, rfl, fun h => ?_⟩
  rcases h 7 _ rfl with hnil | ⟨rs, hrs, -⟩
  · exact List.cons_ne_nil _ _ hnil
  · exact hlast _ rs hrs

end IocpEcho
