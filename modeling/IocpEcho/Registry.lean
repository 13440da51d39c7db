import IocpEcho.Books
import Mathlib.Data.Set.Card

/-!
# The Registry Invariant

`map_Client` is keyed by the addresses of bufferevents, which the allocator recycles, and is
changed by two callbacks that run on different threads: `iocp_listener_cb` inserts at line
236, `iocp_conn_eventcb` erases at line 218 and frees at line 219. The event callback may
also run synchronously inside a libevent call of another callback. This module proves that,
whatever the interleaving, the keys of the map are the bufferevents that have not been freed,
except for those between their creation and line 236 or between the erase and the free of
their event callback.

The invariant gives every frame with a role what that role presupposes, and lets at most one
frame have a role for a bufferevent. The second part needs the books: two event callbacks of
one bufferevent both run under its lock. The books in turn need the registry, because a
bufferevent must not be freed twice; both are proved in one induction over the run.

## Main results

* `invariants_of_reach`: books and registry invariant hold in every reachable state.
* `registry_of_reach`: the keys are the live connections outside the two windows, and line
  236 always inserts a new key.
-/

namespace IocpEcho

open Interleaving

/-- The registry invariant. -/
structure Registry (s : State) : Prop where
  roles : ∀ t, ∀ f ∈ s.stack t, ∀ a, f.role = some a → a.Ok s.mem
  top : ∀ t, ∀ f ∈ (s.stack t).tail, f.role = none
  unique : ∀ t u, ∀ f ∈ s.stack t, ∀ g ∈ s.stack u, ∀ a a', f.role = some a →
    g.role = some a' → a.addr = a'.addr → t = u
  live : ∀ p ∈ s.mem.mapClient, ∃ c cb, s.mem.status p = some ⟨c, false, cb⟩
  window : ∀ p c cb, s.mem.status p = some ⟨c, false, cb⟩ → p ∉ s.mem.mapClient →
    ∃ t, ∃ f ∈ s.stack t, f.role = some (.creating c p) ∨ f.role = some (.erased p)
  armed : ∀ p c fr, s.mem.status p = some ⟨c, fr, true⟩ → fr = false

/-! ### Roles -/

/-- What a role presupposes depends on its own bufferevent only. -/
theorem Role.Ok.congr {m m' : Memory} {a : Role} (hstatus : m'.status a.addr = m.status a.addr)
    (hmap : a.addr ∈ m'.mapClient ↔ a.addr ∈ m.mapClient) (h : a.Ok m) : a.Ok m' := by
  cases a with
  | creating c p => exact ⟨hstatus.trans h.1, fun hp => h.2 (hmap.mp hp)⟩
  | registered c p => exact ⟨hstatus.trans h.1, hmap.mpr h.2⟩
  | closing p => exact ⟨h.1.imp fun c hc => hstatus.trans hc, hmap.mpr h.2⟩
  | erased p => exact ⟨h.1.imp fun c hc => hstatus.trans hc, fun hp => h.2 (hmap.mp hp)⟩

/-- A bufferevent that a role is about has not been freed. -/
theorem Role.Ok.exists_status {m : Memory} {a : Role} (h : a.Ok m) :
    ∃ c cb, m.status a.addr = some ⟨c, false, cb⟩ := by
  cases a with
  | creating c p => exact ⟨c, false, h.1⟩
  | registered c p => exact ⟨c, false, h.1⟩
  | closing p => exact h.1.imp fun c hc => ⟨true, hc⟩
  | erased p => exact h.1.imp fun c hc => ⟨true, hc⟩

/-- The roles of the event callback are those of frames under the lock. -/
theorem under_of_role {f : Frame} {p : Addr}
    (h : f.role = some (.closing p) ∨ f.role = some (.erased p)) : f.under = some p := by
  cases f with
  | listener line c q psin => cases line <;> simp [Frame.role] at h
  | eventcb line q w =>
      cases line <;> simp [Frame.role] at h <;> rw [h] <;> rfl
  | _ => simp [Frame.role] at h

/-- The bufferevent of a frame with a known role. -/
theorem own_of_role {f : Frame} {a : Role} {p : Addr} (hf : f.role = some a)
    (haddr : a.addr = p) : ∀ a', f.role = some a' → a'.addr = p := by
  intro a' ha'
  rw [← haddr, Option.some.inj (hf.symm.trans ha')]

theorem Memory.status_eq {m : Memory} {p : Addr} {b : Bufferevent} (hb : m.heap p = some b) :
    m.status p = some ⟨b.conn, b.freed, b.callbacks⟩ := by
  rw [Memory.status, hb]
  rfl

section Registry

variable {s : State} {t : Tid} {f : Frame} {post : List Frame} {r : Memory × List Frame}
  {p : Addr}

/-- Below the topmost frame nothing has a role. -/
theorem Registry.role_of_mem_post (h : Registry s) (hs : s.stack t = f :: post) :
    ∀ g ∈ post, g.role = none := by
  intro g hg
  refine h.top t g ?_
  rw [hs]
  exact hg

/-- A topmost frame with a role is the only one with a role for its bufferevent. -/
theorem Registry.sole (h : Registry s) (hs : s.stack t = f :: post) {a : Role}
    (hf : f.role = some a) {u : Tid} {g : Frame} {a' : Role} (hg : g ∈ s.stack u)
    (ha' : g.role = some a') (haddr : a'.addr = a.addr) : u = t ∧ g = f := by
  obtain rfl : u = t :=
    h.unique u t g hg f (hs ▸ List.mem_cons_self) a' a ha' hf haddr
  refine ⟨rfl, ?_⟩
  rw [hs] at hg
  rcases List.mem_cons.mp hg with rfl | hg
  · rfl
  · rw [h.role_of_mem_post hs g hg] at ha'
    simp at ha'

/-! ### Steps that keep the registry -/

/-- A step without roles that changes neither registry nor statuses. -/
theorem Registry.quiet (h : Registry s) {popped : List Frame}
    (hs : s.stack t = popped ++ post) (hpopped : ∀ g ∈ popped, g.role = none)
    (hpost : ∀ g ∈ post, g.role = none) (hfs : ∀ g ∈ r.2, g.role = none)
    (hmap : r.1.mapClient = s.mem.mapClient) (hstatus : r.1.status = s.mem.status) :
    Registry (s.set t r post) := by
  -- a frame with a role stands on the stack of another thread, where it stood before
  have hold : ∀ {u g a}, g ∈ (s.set t r post).stack u → g.role = some a →
      g ∈ s.stack u := by
    intro u g a hg ha
    rcases Config.mem_set_stack.mp hg with ⟨-, hg | hg⟩ | ⟨-, hg⟩
    · rw [hfs g hg] at ha
      simp at ha
    · rw [hpost g hg] at ha
      simp at ha
    · exact hg
  refine ⟨fun u g hg a ha => ?_, fun u g hg => ?_, fun u v g hg g' hg' a a' ha ha' haa => ?_,
    ?_, fun q c cb hq hmem => ?_, ?_⟩
  · refine (h.roles u g (hold hg ha) a ha).congr ?_ ?_
    · rw [Config.set_mem, hstatus]
    · rw [Config.set_mem, hmap]
  · by_cases hu : u = t
    · subst hu
      rw [Config.set_stack_self] at hg
      rcases List.mem_append.mp (List.mem_of_mem_tail hg) with hg | hg
      · exact hfs g hg
      · exact hpost g hg
    · rw [Config.set_stack_of_ne _ hu] at hg
      exact h.top u g hg
  · exact h.unique u v g (hold hg ha) g' (hold hg' ha') a a' ha ha' haa
  · rw [Config.set_mem, hmap, hstatus]
    exact h.live
  · rw [Config.set_mem, hstatus] at hq
    rw [Config.set_mem, hmap] at hmem
    obtain ⟨u, g, hg, hrole⟩ := h.window q c cb hq hmem
    refine ⟨u, g, Config.mem_set_stack_of_mem hs hg fun _ hg' => ?_, hrole⟩
    rw [hpopped g hg'] at hrole
    simp at hrole
  · rw [Config.set_mem, hstatus]
    exact h.armed

/-- What a step on the bufferevent `p` owes to the registry. -/
structure Touches (s : State) (t : Tid) (f : Frame) (p : Addr) (r : Memory × List Frame) :
    Prop where
  map : ∀ q, q ≠ p → (q ∈ r.1.mapClient ↔ q ∈ s.mem.mapClient)
  status : ∀ q, q ≠ p → r.1.status q = s.mem.status q
  own : ∀ a, f.role = some a → a.addr = p
  sole : ∀ u, ∀ g ∈ s.stack u, ∀ a, g.role = some a → a.addr = p → u = t ∧ g = f
  frames : r.2 = [] ∨ ∃ g, r.2 = [g]
  roles : ∀ g ∈ r.2, ∀ a, g.role = some a → a.addr = p ∧ a.Ok r.1
  live : p ∈ r.1.mapClient → ∃ c cb, r.1.status p = some ⟨c, false, cb⟩
  window : ∀ c cb, r.1.status p = some ⟨c, false, cb⟩ → p ∉ r.1.mapClient →
    ∃ g ∈ r.2, g.role = some (.creating c p) ∨ g.role = some (.erased p)
  armed : ∀ c fr, r.1.status p = some ⟨c, fr, true⟩ → fr = false

/-- A step on one bufferevent that pays what it owes keeps the registry. -/
theorem Registry.touch (h : Registry s) (hs : s.stack t = f :: post)
    (hr : Touches s t f p r) : Registry (s.set t r post) := by
  have hpost := h.role_of_mem_post hs
  -- a frame with a role was left by the step, or belongs to another thread and another
  -- bufferevent
  have hframe : ∀ {u g a}, g ∈ (s.set t r post).stack u → g.role = some a →
      (u = t ∧ g ∈ r.2 ∧ a.addr = p) ∨ (u ≠ t ∧ g ∈ s.stack u ∧ a.addr ≠ p) := by
    intro u g a hg ha
    rcases Config.mem_set_stack.mp hg with ⟨rfl, hg | hg⟩ | ⟨hu, hg⟩
    · exact Or.inl ⟨rfl, hg, (hr.roles g hg a ha).1⟩
    · rw [hpost g hg] at ha
      simp at ha
    · exact Or.inr ⟨hu, hg, fun hap => hu (hr.sole u g hg a ha hap).1⟩
  refine ⟨fun u g hg a ha => ?_, fun u g hg => ?_, fun u v g hg g' hg' a a' ha ha' haa => ?_,
    fun q hq => ?_, fun q c cb hq hmem => ?_, fun q c fr hq => ?_⟩
  · rcases hframe hg ha with ⟨-, hg, -⟩ | ⟨-, hg, hap⟩
    · exact (hr.roles g hg a ha).2
    · exact (h.roles u g hg a ha).congr (hr.status _ hap) (hr.map _ hap)
  · by_cases hu : u = t
    · subst hu
      rw [Config.set_stack_self] at hg
      rcases hr.frames with hfs | ⟨g', hfs⟩
      · rw [hfs, List.nil_append] at hg
        exact hpost g (List.mem_of_mem_tail hg)
      · rw [hfs, List.singleton_append, List.tail_cons] at hg
        exact hpost g hg
    · rw [Config.set_stack_of_ne _ hu] at hg
      exact h.top u g hg
  · rcases hframe hg ha with ⟨rfl, -, hap⟩ | ⟨-, hg, hap⟩
    · rcases hframe hg' ha' with ⟨rfl, -, -⟩ | ⟨-, -, hap'⟩
      · rfl
      · exact absurd (haa.symm.trans hap) hap'
    · rcases hframe hg' ha' with ⟨-, -, hap'⟩ | ⟨-, hg', -⟩
      · exact absurd (haa.trans hap') hap
      · exact h.unique u v g hg g' hg' a a' ha ha' haa
  · rw [Config.set_mem] at hq ⊢
    by_cases hqp : q = p
    · subst hqp
      exact hr.live hq
    · rw [hr.status q hqp]
      exact h.live q ((hr.map q hqp).mp hq)
  · rw [Config.set_mem] at hq hmem
    by_cases hqp : q = p
    · subst hqp
      obtain ⟨g, hg, hrole⟩ := hr.window c cb hq hmem
      exact ⟨t, g, Config.mem_set_stack.mpr (Or.inl ⟨rfl, Or.inl hg⟩), hrole⟩
    · rw [hr.status q hqp] at hq
      rw [hr.map q hqp] at hmem
      obtain ⟨u, g, hg, hrole⟩ := h.window q c cb hq hmem
      have hs' : s.stack t = [f] ++ post := hs
      refine ⟨u, g, Config.mem_set_stack_of_mem hs' hg fun _ hgf => ?_, hrole⟩
      rw [List.mem_singleton.mp hgf] at hrole
      rcases hrole with hrole | hrole
      · exact absurd (hr.own _ hrole) hqp
      · exact absurd (hr.own _ hrole) hqp
  · rw [Config.set_mem] at hq
    by_cases hqp : q = p
    · subst hqp
      exact hr.armed c fr hq
    · rw [hr.status q hqp] at hq
      exact h.armed q c fr hq

/-! ### Every step keeps the registry -/

/-- No frame has a role for a bufferevent that does not live, or that has been freed. -/
theorem Registry.not_role_of_dead (h : Registry s)
    (hp : ∀ c cb, s.mem.status p ≠ some ⟨c, false, cb⟩) {u : Tid} {g : Frame} {a : Role}
    (hg : g ∈ s.stack u) (ha : g.role = some a) : a.addr ≠ p := by
  rintro rfl
  obtain ⟨c, cb, hstatus⟩ := (h.roles u g hg a ha).exists_status
  exact hp c cb hstatus

/-- While libevent is about to run the event callback of a bufferevent whose callbacks are
set, no frame has a role for it: the accept callback is past `bufferevent_setcb`, and another
event callback would run under the same lock. -/
theorem Registry.not_role_of_under (h : Registry s) (hbooks : Books s)
    (hs : s.stack t = f :: post) (hf : f.role = none) (hu : f.under = some p)
    {c : ℕ} {fr : Bool} (hstatus : s.mem.status p = some ⟨c, fr, true⟩) {u : Tid} {g : Frame}
    {a : Role} (hg : g ∈ s.stack u) (ha : g.role = some a) : a.addr ≠ p := by
  rintro rfl
  have hok := h.roles u g hg a ha
  have hclosing : (∃ q, a = .closing q) ∨ (∃ q, a = .erased q) := by
    cases a with
    | creating c' q =>
        have hst := hstatus.symm.trans hok.1
        simp at hst
    | registered c' q =>
        have hst := hstatus.symm.trans hok.1
        simp at hst
    | closing q => exact Or.inl ⟨q, rfl⟩
    | erased q => exact Or.inr ⟨q, rfl⟩
  have hgu : g.under = some a.addr := by
    rcases hclosing with ⟨q, rfl⟩ | ⟨q, rfl⟩
    · exact under_of_role (Or.inl ha)
    · exact under_of_role (Or.inr ha)
  obtain rfl : u = t :=
    Disciplined.under_unique hbooks hg hgu (hs ▸ List.mem_cons_self) hu
  rw [hs] at hg
  rcases List.mem_cons.mp hg with rfl | hg
  · rw [hf] at ha
    simp at ha
  · rw [h.role_of_mem_post hs g hg] at ha
    simp at ha

/-- Of a bufferevent whose callbacks are set, whose event callback does not run and that is
locked by a running libevent call: it has not been freed and is registered. -/
theorem Registry.registered_of_under (h : Registry s) (hbooks : Books s)
    (hs : s.stack t = f :: post) (hf : f.role = none) (hu : f.under = some p)
    {b : Bufferevent} (hb : s.mem.heap p = some b) (hcb : b.callbacks = true) :
    s.mem.status p = some ⟨b.conn, false, true⟩ ∧ p ∈ s.mem.mapClient := by
  have hstatus := Memory.status_eq hb
  rw [hcb] at hstatus
  have hfreed := h.armed p _ _ hstatus
  rw [hfreed] at hstatus
  refine ⟨hstatus, ?_⟩
  by_contra hmem
  obtain ⟨u, g, hg, hrole⟩ := h.window p _ _ hstatus hmem
  rcases hrole with hrole | hrole
  · exact h.not_role_of_under hbooks hs hf hu hstatus hg hrole rfl
  · exact h.not_role_of_under hbooks hs hf hu hstatus hg hrole rfl

/-- The registry is kept by a step that only moves a frame on in its role. -/
theorem Registry.advance (h : Registry s) (hs : s.stack t = f :: post) {g : Frame} {a : Role}
    (hf : f.role = some a) (hg : g.role = some a) (hfs : r.2 = [g])
    (hmap : r.1.mapClient = s.mem.mapClient) (hstatus : r.1.status = s.mem.status) :
    Registry (s.set t r post) := by
  have hok := h.roles t f (hs ▸ List.mem_cons_self) a hf
  have hsole : ∀ u, ∀ g ∈ s.stack u, ∀ a', g.role = some a' → a'.addr = a.addr →
      u = t ∧ g = f := fun u g' hg' a' ha' haddr => h.sole hs hf hg' ha' haddr
  refine h.touch hs (p := a.addr) ⟨fun q _ => by rw [hmap], fun q _ => by rw [hstatus],
    own_of_role hf rfl, hsole, Or.inr ⟨g, hfs⟩, fun g' hg' a' ha' => ?_, fun hp => ?_,
    fun c cb hp hmem => ?_, fun c fr hp => ?_⟩
  · rw [hfs] at hg'
    obtain rfl := List.mem_singleton.mp hg'
    obtain rfl : a = a' := Option.some.inj (hg.symm.trans ha')
    exact ⟨rfl, hok.congr (by rw [hstatus]) (by rw [hmap])⟩
  · rw [hmap] at hp
    rw [hstatus]
    exact h.live _ hp
  · rw [hstatus] at hp
    rw [hmap] at hmem
    obtain ⟨u, g', hg', hrole⟩ := h.window _ c cb hp hmem
    refine ⟨g, hfs ▸ List.mem_cons_self, ?_⟩
    have hsame : g'.role = g.role := by
      rcases hrole with hrole | hrole
      · obtain ⟨-, rfl⟩ := hsole u g' hg' _ hrole rfl
        rw [hf, hg]
      · obtain ⟨-, rfl⟩ := hsole u g' hg' _ hrole rfl
        rw [hf, hg]
    rw [← hsame]
    exact hrole
  · rw [hstatus] at hp
    exact h.armed _ c fr hp

/-- The creation of a bufferevent keeps the registry. -/
theorem Registry.create (h : Registry s) {sa : SockaddrIn}
    (hs : s.stack t = .iocpListenerCb sa :: post) (hp : s.mem.heap p = none) :
    Registry (s.set t ({ s.mem.setBev p (some (.new s.mem.nextConn)) with
      nextConn := s.mem.nextConn + 1 }, [.listener .l236 s.mem.nextConn p sa]) post) := by
  have hdead : ∀ c cb, s.mem.status p ≠ some ⟨c, false, cb⟩ := by simp [Memory.status, hp]
  have hmem : p ∉ s.mem.mapClient := fun hc => by
    obtain ⟨c, cb, hst⟩ := h.live p hc
    exact hdead c cb hst
  have hnew : (s.mem.setBev p (some (.new s.mem.nextConn))).status p
      = some ⟨s.mem.nextConn, false, false⟩ := Memory.status_setBev_self ..
  refine h.touch hs (p := p) ⟨fun q _ => Iff.rfl, fun q hq => Memory.status_setBev_of_ne hq _,
    fun a ha => ?_, fun u g hg a ha hap => absurd hap (h.not_role_of_dead hdead hg ha),
    Or.inr ⟨_, rfl⟩, fun g hg a ha => ?_, fun hp' => absurd hp' hmem,
    fun c cb hc _ => ?_, fun c fr hc => ?_⟩
  · simp [Frame.role] at ha
  · rw [List.mem_singleton.mp hg, Frame.role, Option.some.injEq] at ha
    subst ha
    exact ⟨rfl, hnew, hmem⟩
  · have hconn : s.mem.nextConn = c := by
      have hst := hnew.symm.trans hc
      simp only [Option.some.injEq, Status.mk.injEq] at hst
      exact hst.1
    rw [hconn]
    exact ⟨_, List.mem_cons_self, Or.inl rfl⟩
  · have hst := hnew.symm.trans hc
    simp at hst

/-- Line 236 keeps the registry: the new bufferevent becomes a key. -/
theorem Registry.insert (h : Registry s) {c : ℕ} {psin : SockaddrIn}
    (hs : s.stack t = .listener .l236 c p psin :: post) :
    Registry (s.set t ({ s.mem with mapClient := s.mem.mapClient.insert p psin },
      [.listener .l238 c p psin]) post) := by
  obtain ⟨hstatus, -⟩ := h.roles t _ (hs ▸ List.mem_cons_self) _ rfl
  refine h.touch hs (p := p) ⟨fun q hq => ?_, fun q _ => rfl, own_of_role rfl rfl,
    fun u g hg a ha hap => h.sole hs rfl hg ha hap, Or.inr ⟨_, rfl⟩,
    fun g hg a ha => ?_, fun _ => ⟨c, false, hstatus⟩, fun c' cb _ hc => ?_, h.armed p⟩
  · rw [Finmap.mem_insert]
    exact or_iff_right hq
  · rw [List.mem_singleton.mp hg, Frame.role, Option.some.injEq] at ha
    subst ha
    exact ⟨rfl, hstatus, Finmap.mem_insert.mpr (Or.inl rfl)⟩
  · exact absurd (Finmap.mem_insert.mpr (Or.inl rfl)) hc

/-- Line 240 keeps the registry: the accept callback gives up its role. -/
theorem Registry.setcb (h : Registry s) {c : ℕ} {psin : SockaddrIn} {b : Bufferevent}
    (hs : s.stack t = .listener .l240 c p psin :: post) (hb : s.mem.heap p = some b) :
    Registry (s.set t (s.mem.setBev p (some b.setcb), [.listener .l241 c p psin]) post) := by
  obtain ⟨hstatus, hmem⟩ := h.roles t _ (hs ▸ List.mem_cons_self) _ rfl
  have hfreed : b.freed = false := by
    have hst := hstatus.symm.trans (Memory.status_eq hb)
    simp only [Option.some.injEq, Status.mk.injEq] at hst
    exact hst.2.1.symm
  have hnew : (s.mem.setBev p (some b.setcb)).status p = some ⟨b.conn, false, true⟩ := by
    rw [Memory.status_setBev_self, ← hfreed]
    rfl
  refine h.touch hs (p := p) ⟨fun q _ => Iff.rfl, fun q hq => Memory.status_setBev_of_ne hq _,
    own_of_role rfl rfl, fun u g hg a ha hap => h.sole hs rfl hg ha hap, Or.inr ⟨_, rfl⟩,
    fun g hg a ha => ?_, fun _ => ⟨_, _, hnew⟩, fun c' cb _ hc => absurd hmem hc,
    fun c' fr hc => ?_⟩
  · rw [List.mem_singleton.mp hg] at ha
    simp [Frame.role] at ha
  · have hst := hnew.symm.trans hc
    simp only [Option.some.injEq, Status.mk.injEq] at hst
    exact hst.2.1.symm

/-- Running the event callback keeps the registry: its bufferevent is registered, and no
other frame has a role for it. -/
theorem Registry.report (h : Registry s) (hbooks : Books s) {w : What} {b : Bufferevent}
    (hs : s.stack t = .runEventcb p w :: post) (hb : s.mem.heap p = some b)
    (hcb : b.callbacks = true) (hfs : r.2 = [.eventcb .l209 p w])
    (hmap : r.1.mapClient = s.mem.mapClient) (hstatus : r.1.status = s.mem.status) :
    Registry (s.set t r post) := by
  obtain ⟨hst, hmem⟩ := h.registered_of_under hbooks hs rfl rfl hb hcb
  refine h.touch hs (p := p) ⟨fun q _ => by rw [hmap], fun q _ => by rw [hstatus],
    fun a ha => ?_, fun u g hg a ha hap => ?_, Or.inr ⟨_, hfs⟩, fun g hg a ha => ?_,
    fun _ => ⟨_, _, by rw [hstatus]; exact hst⟩, fun c' cb _ hc => ?_, ?_⟩
  · simp [Frame.role] at ha
  · exact absurd hap (h.not_role_of_under hbooks hs rfl rfl hst hg ha)
  · rw [hfs] at hg
    rw [List.mem_singleton.mp hg, Frame.role, Option.some.injEq] at ha
    subst ha
    exact ⟨rfl, ⟨_, by rw [hstatus]; exact hst⟩, by rw [hmap]; exact hmem⟩
  · rw [hmap] at hc
    exact absurd hmem hc
  · rw [hstatus]
    exact h.armed p

/-- Line 218 keeps the registry: the event callback stays responsible for the bufferevent it
has erased. -/
theorem Registry.erase (h : Registry s) {w : What}
    (hs : s.stack t = .eventcb .l218 p w :: post) :
    Registry (s.set t ({ s.mem with mapClient := s.mem.mapClient.erase p },
      [.eventcb .l219 p w]) post) := by
  obtain ⟨⟨c, hstatus⟩, -⟩ := h.roles t _ (hs ▸ List.mem_cons_self) _ rfl
  have hout : p ∉ s.mem.mapClient.erase p := Finmap.notMem_erase_self
  refine h.touch hs (p := p) ⟨fun q hq => ?_, fun q _ => rfl, own_of_role rfl rfl,
    fun u g hg a ha hap => h.sole hs rfl hg ha hap, Or.inr ⟨_, rfl⟩,
    fun g hg a ha => ?_, fun hc => absurd hc hout,
    fun c' cb _ _ => ⟨_, List.mem_cons_self, Or.inr rfl⟩, h.armed p⟩
  · rw [Finmap.mem_erase]
    exact and_iff_right hq
  · rw [List.mem_singleton.mp hg, Frame.role, Option.some.injEq] at ha
    subst ha
    exact ⟨rfl, ⟨c, hstatus⟩, hout⟩

/-- Line 219 keeps the registry: the freed bufferevent is no longer a key. -/
theorem Registry.free (h : Registry s) {w : What} {b : Bufferevent}
    (hs : s.stack t = .eventcb .l219 p w :: post) :
    Registry (s.set t (s.mem.setBev p b.free, []) post) := by
  obtain ⟨-, hmem⟩ := h.roles t _ (hs ▸ List.mem_cons_self) _ rfl
  have hset : ∀ c' fr cb, (s.mem.setBev p b.free).status p = some ⟨c', fr, cb⟩ →
      fr = true ∧ cb = false := by
    intro c' fr cb hc
    rw [Memory.status_setBev_self, Bufferevent.free, Bufferevent.decref] at hc
    split at hc
    · simp at hc
    · simp only [Option.map_some, Bufferevent.status, Option.some.injEq, Status.mk.injEq] at hc
      exact ⟨hc.2.1.symm, hc.2.2.symm⟩
  refine h.touch hs (p := p) ⟨fun q _ => Iff.rfl, fun q hq => Memory.status_setBev_of_ne hq _,
    own_of_role rfl rfl, fun u g hg a ha hap => h.sole hs rfl hg ha hap, Or.inl rfl, by simp,
    fun hc => absurd hc hmem, fun c' cb hc _ => ?_, fun c' fr hc => ?_⟩
  · exact absurd (hset _ _ _ hc).1 (by simp)
  · exact absurd (hset _ _ _ hc).2 (by simp)

/-- The end of a freed bufferevent keeps the registry. -/
theorem Registry.destroy (h : Registry s) (hs : s.stack t = f :: post) (hf : f.role = none)
    {b : Bufferevent} (hb : s.mem.heap p = some b) (hfreed : b.freed = true) :
    Registry (s.set t (s.mem.setBev p none, []) post) := by
  have hdead : ∀ c cb, s.mem.status p ≠ some ⟨c, false, cb⟩ := by
    intro c cb hc
    have hst := hc.symm.trans (Memory.status_eq hb)
    rw [hfreed] at hst
    simp at hst
  have hnone : (s.mem.setBev p none).status p = none := Memory.status_setBev_self ..
  refine h.touch hs (p := p) ⟨fun q _ => Iff.rfl, fun q hq => Memory.status_setBev_of_ne hq _,
    fun a ha => ?_, fun u g hg a ha hap => absurd hap (h.not_role_of_dead hdead hg ha),
    Or.inl rfl, by simp, fun hc => ?_, fun c' cb hc => ?_, fun c' fr hc => ?_⟩
  · rw [hf] at ha
    simp at ha
  · obtain ⟨c, cb, hst⟩ := h.live p hc
    exact absurd hst (hdead c cb)
  · rw [hnone] at hc
    simp at hc
  · rw [hnone] at hc
    simp at hc

/-- **Every statement keeps the registry invariant.** -/
theorem Registry.exec {o : Outcome} (h : Registry s) (hbooks : Books s)
    (hs : s.stack t = f :: post) (hr : exec t o f s.mem = some r) :
    Registry (s.set t r post) := by
  cases exec_effect hr with
  | quiet hf hfs hmap hstatus =>
      have hs' : s.stack t = [f] ++ post := hs
      refine h.quiet hs' (fun g hg => ?_) (h.role_of_mem_post hs) hfs hmap hstatus
      rw [List.mem_singleton.mp hg]
      exact hf
  | advance hf hg hfs hmap hstatus => exact h.advance hs hf hg hfs hmap hstatus
  | create hp => exact h.create hs hp
  | insert => exact h.insert hs
  | setcb hb => exact h.setcb hs hb
  | report hb hcb hfs hmap hstatus => exact h.report hbooks hs hb hcb hfs hmap hstatus
  | erase => exact h.erase hs
  | free hb ha => exact h.free hs
  | destroy hf hb ha hlast =>
      refine h.destroy hs ?_ hb (hbooks.freed_of_last hs hf hb ha hlast)
      rcases hf with rfl | rfl
      · rfl
      · rfl
  | stale hf hp _ =>
      -- a frame with a role has a bufferevent
      obtain ⟨c, cb, hst⟩ := (h.roles t f (hs ▸ List.mem_cons_self) _ hf).exists_status
      rw [Memory.status, hp] at hst
      simp at hst

/-- Every outside event keeps the registry invariant. -/
theorem Registry.start {e : Event} (h : Registry s) (hs : s.stack t = [])
    (hr : start t e s.mem = some r) : Registry (s.set t r []) := by
  have hs' : s.stack t = [] ++ [] := hs
  obtain ⟨hmap, hstatus⟩ := start_quiet hr
  refine h.quiet hs' (by simp) (by simp) (fun g hg => ?_) hmap hstatus
  cases start_pushes hr g hg with
  | accept _ => rfl
  | reads _ _ _ => rfl
  | fails _ _ _ => rfl
  | calls hg => rcases hg with rfl | rfl | rfl | rfl <;> rfl

end Registry

/-- The registry invariant of the initial state. -/
theorem registry_init : Registry State.init where
  roles t f hf := by simp [State.init] at hf
  top t f hf := by simp [State.init] at hf
  unique t u f hf := by simp [State.init] at hf
  live p hp := absurd hp (Finmap.notMem_empty)
  window p c cb hp := by simp [Memory.status, State.init] at hp
  armed p c fr hp := by simp [Memory.status, State.init] at hp

/-- Books and registry invariant together are kept by every step. -/
theorem invariants_step {s s' : State} {l : Label Tid Outcome Event}
    (h : Books s ∧ Registry s) (hstep : server.step s l = some s') :
    Books s' ∧ Registry s' := by
  obtain ⟨hbooks, hreg⟩ := h
  rcases Program.step_cases hstep with
    ⟨t, o, f, post, r, -, hs, hr, rfl⟩ | ⟨t, e, r, -, hs, hr, rfl⟩
  · refine ⟨hbooks.exec hs hr fun q w b hf hb => ?_, hreg.exec hbooks hs hr⟩
    subst hf
    obtain ⟨⟨c, hstatus⟩, -⟩ := hreg.roles t _ (hs ▸ List.mem_cons_self) _ rfl
    have hst := hstatus.symm.trans (Memory.status_eq hb)
    simp only [Option.some.injEq, Status.mk.injEq] at hst
    exact hst.2.1.symm
  · exact ⟨hbooks.start hs hr, hreg.start hs hr⟩

/-- **Books and registry invariant hold in every reachable state.** -/
theorem invariants_of_reach {C : State → Label Tid Outcome Event → Prop} {s : State}
    (h : Reach server.step C State.init s) : Books s ∧ Registry s :=
  h.invariant (fun s => Books s ∧ Registry s) ⟨books_init, registry_init⟩
    fun _ _ _ hI _ hstep => invariants_step hI hstep

/-! ### What the other callbacks may rely on -/

section Stays

variable {s : State} {t : Tid} {o : Outcome} {f : Frame} {post : List Frame}
  {r : Memory × List Frame} {p : Addr}

/-- An entry of the registry stays until its event callback erases it. -/
theorem mem_stays {m : Memory} (hr : exec t o f m = some r) (hp : p ∈ m.mapClient)
    (hne : ∀ w, f ≠ .eventcb .l218 p w) : p ∈ r.1.mapClient := by
  cases exec_effect hr with
  | quiet _ _ hmap _ => exact hmap ▸ hp
  | advance _ _ _ hmap _ => exact hmap ▸ hp
  | create _ => exact hp
  | insert => exact Finmap.mem_insert.mpr (Or.inr hp)
  | setcb _ => exact hp
  | report _ _ _ hmap _ => exact hmap ▸ hp
  | @erase q w =>
      refine Finmap.mem_erase.mpr ⟨?_, hp⟩
      rintro rfl
      exact hne w rfl
  | free _ _ => exact hp
  | destroy _ _ _ _ => exact hp
  | stale _ _ hmem => exact hmem ▸ hp

/-- A bufferevent that has not been freed stays so, with its callbacks, until its event
callback frees it. -/
theorem status_stays (hbooks : Books s) (hs : s.stack t = f :: post)
    (hr : exec t o f s.mem = some r) {c : ℕ} {cb : Bool}
    (hst : s.mem.status p = some ⟨c, false, cb⟩) (hne : ∀ w, f ≠ .eventcb .l219 p w) :
    ∃ cb', (cb = true → cb' = true) ∧ r.1.status p = some ⟨c, false, cb'⟩ := by
  have hother : ∀ {q : Addr} {b : Option Bufferevent}, p ≠ q →
      (s.mem.setBev q b).status p = some ⟨c, false, cb⟩ := by
    intro q b hqp
    exact (Memory.status_setBev_of_ne hqp b).trans hst
  cases exec_effect hr with
  | quiet _ _ _ hstatus => exact ⟨cb, id, hstatus ▸ hst⟩
  | advance _ _ _ _ hstatus => exact ⟨cb, id, hstatus ▸ hst⟩
  | @create sa q hq =>
      refine ⟨cb, id, hother ?_⟩
      rintro rfl
      rw [Memory.status, hq] at hst
      simp at hst
  | insert => exact ⟨cb, id, hst⟩
  | @setcb c' q psin b hb =>
      by_cases hqp : p = q
      · subst hqp
        have hb' := hst.symm.trans (Memory.status_eq hb)
        simp only [Option.some.injEq, Status.mk.injEq] at hb'
        refine ⟨true, fun _ => rfl, ?_⟩
        rw [Memory.status_setBev_self, hb'.1, hb'.2.1]
        rfl
      · exact ⟨cb, id, hother hqp⟩
  | report _ _ _ _ hstatus => exact ⟨cb, id, hstatus ▸ hst⟩
  | erase => exact ⟨cb, id, hst⟩
  | @free q w b hb ha =>
      refine ⟨cb, id, hother ?_⟩
      rintro rfl
      exact hne w rfl
  | @destroy f q b hf hb ha hlast =>
      refine ⟨cb, id, hother ?_⟩
      rintro rfl
      have hfreed := hbooks.freed_of_last hs hf hb ha hlast
      have hb' := hst.symm.trans (Memory.status_eq hb)
      rw [hfreed] at hb'
      simp at hb'
  | stale _ _ hmem => exact ⟨cb, id, hmem ▸ hst⟩

end Stays

/-! ### The keys are the live connections -/

/-- A bufferevent on which `bufferevent_free` has not been called. -/
def Memory.Live (m : Memory) (p : Addr) : Prop :=
  ∃ b, m.heap p = some b ∧ b.freed = false

/-- A bufferevent between its creation and line 236 of its accept callback, or between the
erase and the free of its own event callback. -/
def InWindow (s : State) (p : Addr) : Prop :=
  (∃ t b psin, s.mem.heap p = some b ∧ .listener .l236 b.conn p psin ∈ s.stack t) ∨
    (∃ t w, .eventcb .l219 p w ∈ s.stack t)

theorem Memory.live_iff {m : Memory} {p : Addr} :
    m.Live p ↔ ∃ c cb, m.status p = some ⟨c, false, cb⟩ := by
  constructor
  · rintro ⟨b, hb, hfreed⟩
    exact ⟨b.conn, b.callbacks, hfreed ▸ Memory.status_eq hb⟩
  · rintro ⟨c, cb, hst⟩
    obtain ⟨b, hb, hstatus⟩ := Option.map_eq_some_iff.mp hst
    exact ⟨b, hb, congrArg Status.freed hstatus⟩

/-- A registered bufferevent is in neither window. -/
theorem Registry.not_inWindow {s : State} (h : Registry s) {p : Addr}
    (hp : p ∈ s.mem.mapClient) : ¬ InWindow s p := by
  rintro (⟨t, b, psin, -, hf⟩ | ⟨t, w, hf⟩)
  · exact (h.roles t _ hf _ rfl).2 hp
  · exact (h.roles t _ hf _ rfl).2 hp

/-- The frames with a role of the windows. -/
theorem frame_of_creating {f : Frame} {c : ℕ} {p : Addr}
    (h : f.role = some (.creating c p)) : ∃ psin, f = .listener .l236 c p psin := by
  cases f with
  | listener line c' q psin =>
      cases line <;> simp [Frame.role] at h
      obtain ⟨rfl, rfl⟩ := h
      exact ⟨psin, rfl⟩
  | eventcb line q w => cases line <;> simp [Frame.role] at h
  | _ => simp [Frame.role] at h

theorem frame_of_erased {f : Frame} {p : Addr} (h : f.role = some (.erased p)) :
    ∃ w, f = .eventcb .l219 p w := by
  cases f with
  | listener line c' q psin => cases line <;> simp [Frame.role] at h
  | eventcb line q w =>
      cases line <;> simp [Frame.role] at h
      exact ⟨w, by rw [h]⟩
  | _ => simp [Frame.role] at h

/-- A live bufferevent that is not registered is in one of the windows. -/
theorem Registry.inWindow {s : State} (h : Registry s) {p : Addr} (hlive : s.mem.Live p)
    (hp : p ∉ s.mem.mapClient) : InWindow s p := by
  obtain ⟨b, hb, hfreed⟩ := hlive
  have hst := Memory.status_eq hb
  rw [hfreed] at hst
  obtain ⟨t, f, hf, hrole | hrole⟩ := h.window p _ _ hst hp
  · obtain ⟨psin, rfl⟩ := frame_of_creating hrole
    exact Or.inl ⟨t, b, psin, hb, hf⟩
  · obtain ⟨w, rfl⟩ := frame_of_erased hrole
    exact Or.inr ⟨t, w, hf⟩

/-- The registered bufferevents are the live ones outside the windows. -/
theorem Registry.mem_iff {s : State} (h : Registry s) (p : Addr) :
    p ∈ s.mem.mapClient ↔ s.mem.Live p ∧ ¬ InWindow s p := by
  constructor
  · intro hp
    exact ⟨Memory.live_iff.mpr (h.live p hp), h.not_inWindow hp⟩
  · rintro ⟨hlive, hwin⟩
    by_contra hp
    exact hwin (h.inWindow hlive hp)

/-- The size of the registry is the number of live bufferevents outside the windows. -/
theorem Registry.card_keys {s : State} (h : Registry s) :
    s.mem.mapClient.keys.card = {p | s.mem.Live p ∧ ¬ InWindow s p}.ncard := by
  rw [← Set.ncard_coe_finset]
  congr 1
  ext p
  rw [Finset.mem_coe, Finmap.mem_keys, Set.mem_ofPred_eq, h.mem_iff p]

/-- **The registry invariant.** In every reachable state the keys of `map_Client` are live,
and the live bufferevents that are missing are in one of the two windows; so outside the
windows the keys are the live connections and the size of the map is their number. And line
236 always inserts a new key. -/
theorem registry_of_reach {s : State} (h : Reach server.step Always State.init s) :
    (∀ p ∈ s.mem.mapClient, s.mem.Live p) ∧
    (∀ p, s.mem.Live p → p ∉ s.mem.mapClient → InWindow s p) ∧
    s.mem.mapClient.keys.card = {p | s.mem.Live p ∧ ¬ InWindow s p}.ncard ∧
    ((∀ p, ¬ InWindow s p) → (∀ p, p ∈ s.mem.mapClient ↔ s.mem.Live p) ∧
      s.mem.mapClient.keys.card = {p | s.mem.Live p}.ncard) ∧
    (∀ t o c p psin post s', s.stack t = .listener .l236 c p psin :: post →
      server.step s (.exec t o) = some s' →
      p ∉ s.mem.mapClient ∧ s'.mem.mapClient.lookup p = some psin ∧
      (∀ q, q ≠ p → s'.mem.mapClient.lookup q = s.mem.mapClient.lookup q)) := by
  obtain ⟨-, hreg⟩ := invariants_of_reach h
  refine ⟨fun p hp => ((hreg.mem_iff p).mp hp).1, fun p => hreg.inWindow, hreg.card_keys,
    fun hwin => ⟨fun p => ?_, ?_⟩, fun t o c p psin post s' hs hstep => ?_⟩
  · rw [hreg.mem_iff p]
    exact and_iff_left (hwin p)
  · rw [hreg.card_keys]
    congr 1
    ext p
    exact and_iff_left (hwin p)
  · rcases Program.step_cases hstep with
      ⟨u, o', f, post', r, hl, hs', hr, rfl⟩ | ⟨u, e, r, hl, -, -, -⟩
    · obtain ⟨rfl, rfl⟩ := Label.exec.inj hl
      rw [hs, List.cons.injEq] at hs'
      obtain ⟨rfl, rfl⟩ := hs'
      obtain rfl := Option.some.inj hr
      have hok : (Role.creating c p).Ok s.mem :=
        hreg.roles t _ (hs ▸ List.mem_cons_self) _ rfl
      refine ⟨hok.2, ?_, fun q hq => ?_⟩
      · exact Finmap.lookup_insert _
      · exact Finmap.lookup_insert_of_ne _ hq
    · simp at hl

/-- The allocator returns address 7 and every operation is launched. -/
def goodOutcome : Outcome := ⟨some 7, true, someTime, [], 0⟩

/-- The same, with no operation that can be launched. -/
def badOutcome : Outcome := ⟨some 7, false, someTime, [], 0⟩

/-- The dispatch thread accepts a connection and executes the first `n` statements. -/
def acceptRun (n : ℕ) : List (Label Tid Outcome Event) :=
  .start 0 (.accept ⟨80, 1⟩) :: List.replicate n (.exec 0 goodOutcome)

/-- After line 236 the one key of the registry is live. -/
theorem registry_of_reach_acceptRun :
    ∃ s, run server.step State.init (acceptRun 2) = some s ∧ 7 ∈ s.mem.mapClient ∧
      ∀ p ∈ s.mem.mapClient, s.mem.Live p :=
  ⟨_, rfl, Finmap.mem_insert.mpr (Or.inl rfl),
    (registry_of_reach (reach_of_run (along_always _ (acceptRun 2) _) rfl)).1⟩

end IocpEcho
