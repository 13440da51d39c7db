import IocpEcho.Callbacks

/-!
# What a Step of the Server can do

The invariants of the server are about few things: which bufferevents are registered in
`map_Client`, which have been freed, and where the callbacks stand. This module says once
what a statement can do to these, so that no later proof has to unfold the program.

The *status* of a bufferevent is the creation it stems from, whether it has been freed and
whether its callbacks are set. A frame has a *role* when it takes part in the life cycle of
a bufferevent: the accept callback from the creation to `bufferevent_setcb`, and the event
callback. Most statements are quiet: they touch neither registry nor status and involve no
role.

## Main results

* `exec_effect`: what a statement does to the registry, the statuses and the roles.
* `exec_pushes`: which frames a statement can leave behind, and under which condition.
* `start_cases`: what an outside event does.
-/

namespace IocpEcho

open Interleaving

/-! ### Inversion of libevent calls -/

/-- A libevent call found no bufferevent, or one whose lock it could enter. -/
theorem Memory.onBev_cases {m : Memory} {t : Tid} {p : Addr} {dead : List Frame}
    {f : Bufferevent → Option Bufferevent × List Frame} {r : Memory × List Frame}
    (h : m.onBev t p dead f = some r) :
    (m.heap p = none ∧ r = (m, dead)) ∨
    (∃ b, m.heap p = some b ∧ available t b.lock = true ∧
      r = (m.setBev p (f b).1, (f b).2)) := by
  rw [Memory.onBev] at h
  cases hb : m.heap p with
  | none =>
      simp only [hb, Option.some.injEq] at h
      exact Or.inl ⟨rfl, h.symm⟩
  | some b =>
      simp only [hb] at h
      split at h
      · rename_i ha
        simp only [Option.some.injEq] at h
        exact Or.inr ⟨b, rfl, ha, h.symm⟩
      · simp at h

/-- A reading libevent call changes nothing but the console. -/
theorem Memory.readBev_cases {m : Memory} {t : Tid} {p : Addr}
    {f : Bufferevent → List Print × List Frame} {r : Memory × List Frame}
    (h : m.readBev t p f = some r) :
    (m.heap p = none ∧ r = (m, [])) ∨
    (∃ b, m.heap p = some b ∧ available t b.lock = true ∧ r = (m.print (f b).1, (f b).2)) := by
  rw [Memory.readBev] at h
  cases hb : m.heap p with
  | none =>
      simp only [hb, Option.some.injEq] at h
      exact Or.inl ⟨rfl, h.symm⟩
  | some b =>
      simp only [hb] at h
      split at h
      · rename_i ha
        simp only [Option.some.injEq] at h
        exact Or.inr ⟨b, rfl, ha, h.symm⟩
      · simp at h

/-- `iocp_listener_cb` up to line 236: no bufferevent, or a new one at an unused address. -/
theorem exec_iocpListenerCb {t : Tid} {o : Outcome} {sa : SockaddrIn} {m : Memory}
    {r : Memory × List Frame} (h : exec t o (.iocpListenerCb sa) m = some r) :
    (o.addr = none ∧ r = ({ m.print [.errorConstructing] with loopbreak := true }, [])) ∨
    (∃ p, o.addr = some p ∧ m.heap p = none ∧
      r = ({ m.setBev p (some (.new m.nextConn)) with nextConn := m.nextConn + 1 },
        [.listener .l236 m.nextConn p sa])) := by
  simp only [exec] at h
  cases ho : o.addr with
  | none =>
      simp only [ho, Option.some.injEq] at h
      exact Or.inl ⟨rfl, h.symm⟩
  | some p =>
      simp only [ho] at h
      cases hp : m.heap p with
      | some b => simp [hp] at h
      | none =>
          simp only [hp, Option.some.injEq] at h
          exact Or.inr ⟨p, rfl, hp, h.symm⟩

/-- The bufferevents after a step on `q`: what the step left there, and the others. -/
theorem heap_update_cases {m m' : Memory} {p q : Addr} {b₁ : Option Bufferevent}
    {b : Bufferevent} (hheap : m'.heap = Function.update m.heap q b₁)
    (hb : m'.heap p = some b) : (p = q ∧ b₁ = some b) ∨ (p ≠ q ∧ m.heap p = some b) := by
  rw [hheap] at hb
  by_cases hqp : p = q
  · subst hqp
    rw [Function.update_self] at hb
    exact Or.inl ⟨rfl, hb⟩
  · rw [Function.update_of_ne hqp] at hb
    exact Or.inr ⟨hqp, hb⟩

/-! ### Statuses and roles -/

/-- What the life cycle of a bufferevent depends on. -/
structure Status where
  conn : ℕ
  freed : Bool
  callbacks : Bool
  deriving DecidableEq

/-- The status of a bufferevent. -/
def Bufferevent.status (b : Bufferevent) : Status :=
  ⟨b.conn, b.freed, b.callbacks⟩

/-- The statuses of all bufferevents. -/
def Memory.status (m : Memory) (p : Addr) : Option Status :=
  (m.heap p).map Bufferevent.status

theorem Memory.status_setBev (m : Memory) (p : Addr) (b : Option Bufferevent) :
    (m.setBev p b).status = Function.update m.status p (b.map Bufferevent.status) := by
  funext q
  by_cases hq : q = p
  · subst hq
    simp [Memory.status, Memory.setBev]
  · simp [Memory.status, Memory.setBev, hq]

theorem Memory.status_setBev_self (m : Memory) (p : Addr) (b : Option Bufferevent) :
    (m.setBev p b).status p = b.map Bufferevent.status := by
  rw [Memory.status_setBev, Function.update_self]

theorem Memory.status_setBev_of_ne {m : Memory} {p q : Addr} (h : q ≠ p)
    (b : Option Bufferevent) : (m.setBev p b).status q = m.status q := by
  rw [Memory.status_setBev, Function.update_of_ne h]

/-- Replacing a bufferevent by one of the same status. -/
theorem Memory.status_setBev_eq {m : Memory} {p : Addr} {b : Bufferevent}
    {b' : Option Bufferevent} (hb : m.heap p = some b)
    (hstatus : b'.map Bufferevent.status = some b.status) :
    (m.setBev p b').status = m.status := by
  rw [Memory.status_setBev, hstatus]
  refine Function.update_eq_self_iff.mpr ?_
  rw [Memory.status, hb, Option.map_some]

/-- The part a frame has in the life cycle of a bufferevent: it has been created but not
registered; it has been registered and gets its callbacks; it is being closed; it has been
erased from the registry and is being freed. -/
inductive Role
  | creating (conn : ℕ) (p : Addr)
  | registered (conn : ℕ) (p : Addr)
  | closing (p : Addr)
  | erased (p : Addr)
  deriving DecidableEq

/-- The role of a frame. -/
def Frame.role : Frame → Option Role
  | .listener .l236 c p _ => some (.creating c p)
  | .listener .l238 c p _ | .listener .l239 c p _ | .listener .l240 c p _ =>
      some (.registered c p)
  | .eventcb .l209 p _ | .eventcb .l218 p _ => some (.closing p)
  | .eventcb .l219 p _ => some (.erased p)
  | _ => none

/-- The bufferevent a role is about. -/
def Role.addr : Role → Addr
  | .creating _ p | .registered _ p | .closing p | .erased p => p

/-- What a role presupposes: the bufferevent has not been freed, its callbacks are set
exactly when it is being closed, and it is registered in between. -/
def Role.Ok (m : Memory) : Role → Prop
  | .creating c p => m.status p = some ⟨c, false, false⟩ ∧ p ∉ m.mapClient
  | .registered c p => m.status p = some ⟨c, false, false⟩ ∧ p ∈ m.mapClient
  | .closing p => (∃ c, m.status p = some ⟨c, false, true⟩) ∧ p ∈ m.mapClient
  | .erased p => (∃ c, m.status p = some ⟨c, false, true⟩) ∧ p ∉ m.mapClient

/-! ### The effect of a statement -/

/-- What a statement does to the registry, the statuses and the roles. -/
inductive Effect (t : Tid) (m : Memory) : Frame → Memory × List Frame → Prop
  | quiet {f : Frame} {r : Memory × List Frame} (hf : f.role = none)
      (hfs : ∀ g ∈ r.2, g.role = none) (hmap : r.1.mapClient = m.mapClient)
      (hstatus : r.1.status = m.status) : Effect t m f r
  | advance {f g : Frame} {r : Memory × List Frame} {a : Role} (hf : f.role = some a)
      (hg : g.role = some a) (hfs : r.2 = [g]) (hmap : r.1.mapClient = m.mapClient)
      (hstatus : r.1.status = m.status) : Effect t m f r
  | create {sa : SockaddrIn} {p : Addr} (hp : m.heap p = none) :
      Effect t m (.iocpListenerCb sa)
        ({ m.setBev p (some (.new m.nextConn)) with nextConn := m.nextConn + 1 },
          [.listener .l236 m.nextConn p sa])
  | insert {c : ℕ} {p : Addr} {psin : SockaddrIn} :
      Effect t m (.listener .l236 c p psin)
        ({ m with mapClient := m.mapClient.insert p psin }, [.listener .l238 c p psin])
  | setcb {c : ℕ} {p : Addr} {psin : SockaddrIn} {b : Bufferevent}
      (hb : m.heap p = some b) :
      Effect t m (.listener .l240 c p psin)
        (m.setBev p (some b.setcb), [.listener .l241 c p psin])
  | report {p : Addr} {w : What} {b : Bufferevent} {r : Memory × List Frame}
      (hb : m.heap p = some b) (hcb : b.callbacks = true)
      (hfs : r.2 = [.eventcb .l209 p w]) (hmap : r.1.mapClient = m.mapClient)
      (hstatus : r.1.status = m.status) : Effect t m (.runEventcb p w) r
  | erase {p : Addr} {w : What} :
      Effect t m (.eventcb .l218 p w)
        ({ m with mapClient := m.mapClient.erase p }, [.eventcb .l219 p w])
  | free {p : Addr} {w : What} {b : Bufferevent} (hb : m.heap p = some b)
      (ha : available t b.lock = true) :
      Effect t m (.eventcb .l219 p w) (m.setBev p b.free, [])
  | destroy {f : Frame} {p : Addr} {b : Bufferevent}
      (hf : f = .decrefAndUnlock p ∨ f = .decref p) (hb : m.heap p = some b)
      (ha : available t b.lock = true) (hlast : b.refcnt - 1 = 0) :
      Effect t m f (m.setBev p none, [])
  | stale {f : Frame} {r : Memory × List Frame} {a : Role} (hf : f.role = some a)
      (hp : m.heap a.addr = none) (hmem : r.1 = m) : Effect t m f r

section Exec

variable {t : Tid} {o : Outcome} {m : Memory} {f : Frame} {p : Addr} {r : Memory × List Frame}

/-- A reading call is quiet when the frames it leaves have no role. -/
theorem effect_readBev {g : Bufferevent → List Print × List Frame} (hf : f.role = none)
    (hg : ∀ b, ∀ f' ∈ (g b).2, f'.role = none) (h : m.readBev t p g = some r) :
    Effect t m f r := by
  rcases Memory.readBev_cases h with ⟨-, rfl⟩ | ⟨b, -, -, rfl⟩
  · exact Effect.quiet hf (by simp) rfl rfl
  · exact Effect.quiet hf (hg b) rfl rfl

/-- A call that keeps the status is quiet when the frames it leaves have no role. -/
theorem effect_onBev {dead : List Frame} {g : Bufferevent → Option Bufferevent × List Frame}
    (hf : f.role = none) (hdead : ∀ f' ∈ dead, f'.role = none)
    (hg : ∀ b, (g b).1.map Bufferevent.status = some b.status)
    (hfs : ∀ b, ∀ f' ∈ (g b).2, f'.role = none) (h : m.onBev t p dead g = some r) :
    Effect t m f r := by
  rcases Memory.onBev_cases h with ⟨-, rfl⟩ | ⟨b, hb, -, rfl⟩
  · exact Effect.quiet hf hdead rfl rfl
  · exact Effect.quiet hf (hfs b) rfl (Memory.status_setBev_eq hb (hg b))

theorem effect_write {q : Addr} {data : List Byte} (hf : f.role = none)
    (h : m.onBev t q [] (buffereventWrite t q data) = some r) : Effect t m f r := by
  refine effect_onBev hf (by simp) (fun b => rfl) (fun b f' hf' => ?_) h
  have hmem : f' = .considerWriting q ∨ f' = .decrefAndUnlock q := by
    simpa [buffereventWrite] using hf'
  rcases hmem with rfl | rfl <;> rfl

theorem effect_listener {line : ListenerLine} {c : ℕ} {psin : SockaddrIn}
    (h : execListener m t line c p psin = some r) :
    Effect t m (.listener line c p psin) r := by
  cases line with
  | l236 =>
      obtain rfl := Option.some.inj h
      exact Effect.insert
  | l238 =>
      obtain rfl := Option.some.inj h
      exact Effect.advance rfl rfl rfl rfl rfl
  | l239 =>
      obtain rfl := Option.some.inj h
      exact Effect.advance rfl rfl rfl rfl rfl
  | l240 =>
      rcases Memory.onBev_cases h with ⟨hp, rfl⟩ | ⟨b, hb, -, rfl⟩
      · exact Effect.stale rfl hp rfl
      · exact Effect.setcb hb
  | l241 =>
      refine effect_onBev rfl (by simp [Frame.role]) (fun b => rfl)
        (fun b f' hf' => ?_) h
      cases hok : b.ok <;> simp [hok] at hf' <;> rcases hf' with rfl | rfl | rfl <;> rfl
  | l242 =>
      refine effect_onBev rfl (by simp [Frame.role]) (fun b => rfl)
        (fun b f' hf' => ?_) h
      cases hok : b.ok <;> simp [hok] at hf' <;> rcases hf' with rfl | rfl | rfl <;> rfl
  | l244 => exact effect_write rfl h

theorem effect_readcb {line : ReadLine} (h : execReadcb m t o p line = some r) :
    Effect t m (.readcb line p) r := by
  cases line with
  | l162 =>
      refine effect_readBev rfl (fun b f' hf' => ?_) h
      by_cases hin : b.input = [] <;> simp [hin] at hf'
      rw [hf']
      rfl
  | l171 =>
      refine effect_onBev rfl (by simp [Frame.role]) (fun b => ?_) (fun b f' hf' => ?_) h
      · by_cases hin : b.input = []
        · simp only [if_pos hin]
          rfl
        · simp only [if_neg hin]
          rfl
      · by_cases hin : b.input = [] <;> simp [hin] at hf'
        · rw [hf']
          rfl
        · rcases hf' with rfl | rfl | rfl <;> rfl
  | l173 buf =>
      obtain rfl := Option.some.inj h
      exact Effect.quiet rfl (by simp [Frame.role]) rfl rfl
  | l177 buf itFind =>
      obtain rfl := Option.some.inj h
      exact Effect.quiet rfl (by simp [Frame.role]) rfl rfl
  | l194 itFind a => exact effect_write rfl h

theorem effect_eventcb {line : EventLine} {w : What}
    (h : execEventcb m t p w line = some r) : Effect t m (.eventcb line p w) r := by
  cases line with
  | l209 =>
      obtain rfl := Option.some.inj h
      exact Effect.advance rfl rfl rfl rfl rfl
  | l218 =>
      obtain rfl := Option.some.inj h
      exact Effect.erase
  | l219 =>
      rcases Memory.onBev_cases h with ⟨hp, rfl⟩ | ⟨b, hb, ha, rfl⟩
      · exact Effect.stale rfl hp rfl
      · exact Effect.free hb ha

/-- Considering an operation keeps the status and leaves frames without a role. -/
theorem effect_considerReading {site : ReadSite}
    (h : m.onBev t p [] (bevAsyncConsiderReading o.launched p) = some r) :
    Effect t m (.considerReading site p) r := by
  refine effect_onBev rfl (by simp) (fun b => ?_) (fun b f' hf' => ?_) h
  · rw [bevAsyncConsiderReading]
    split
    · split
      · rfl
      · rfl
    · rfl
  · rw [bevAsyncConsiderReading] at hf'
    split at hf'
    · split at hf'
      · simp at hf'
      · simp at hf'
        rcases hf' with rfl | rfl <;> rfl
    · simp at hf'

theorem effect_considerWriting
    (h : m.onBev t p [] (bevAsyncConsiderWriting o.launched p) = some r) :
    Effect t m (.considerWriting p) r := by
  refine effect_onBev rfl (by simp) (fun b => ?_) (fun b f' hf' => ?_) h
  · rw [bevAsyncConsiderWriting]
    split
    · split
      · rfl
      · rfl
    · rfl
  · rw [bevAsyncConsiderWriting] at hf'
    split at hf'
    · split at hf'
      · simp at hf'
      · simp at hf'
        rw [hf']
        rfl
    · simp at hf'

/-- **What a statement can do** to the registry, the statuses and the roles. -/
theorem exec_effect (h : exec t o f m = some r) : Effect t m f r := by
  cases f with
  | iocpListenerCb sa =>
      rcases exec_iocpListenerCb h with ⟨-, rfl⟩ | ⟨p, -, hp, rfl⟩
      · exact Effect.quiet rfl (by simp) rfl rfl
      · exact Effect.create hp
  | listener line c p psin => exact effect_listener h
  | readcb line p => exact effect_readcb h
  | writecb p => exact effect_readBev rfl (by simp) h
  | eventcb line p w => exact effect_eventcb h
  | considerReading site p => exact effect_considerReading h
  | considerWriting p => exact effect_considerWriting h
  | runReadcb p =>
      refine effect_readBev rfl (fun b f' hf' => ?_) h
      cases hcb : b.callbacks <;> simp [hcb] at hf'
      rw [hf']
      rfl
  | runWritecb p =>
      refine effect_readBev rfl (fun b f' hf' => ?_) h
      cases hcb : b.callbacks <;> simp [hcb] at hf'
      rw [hf']
      rfl
  | runEventcb p w =>
      rcases Memory.readBev_cases h with ⟨-, rfl⟩ | ⟨b, hb, -, rfl⟩
      · exact Effect.quiet rfl (by simp) rfl rfl
      · cases hcb : b.callbacks with
        | false => exact Effect.quiet rfl (by simp) rfl rfl
        | true => exact Effect.report hb hcb rfl rfl rfl
  | decref p =>
      rcases Memory.onBev_cases h with ⟨-, rfl⟩ | ⟨b, hb, ha, rfl⟩
      · exact Effect.quiet rfl (by simp) rfl rfl
      · by_cases hlast : b.refcnt - 1 = 0
        · simp only [Bufferevent.decref, if_pos hlast]
          exact Effect.destroy (Or.inr rfl) hb ha hlast
        · simp only [Bufferevent.decref, if_neg hlast]
          exact Effect.quiet rfl (by simp) rfl (Memory.status_setBev_eq hb rfl)
  | decrefAndUnlock p =>
      rcases Memory.onBev_cases h with ⟨-, rfl⟩ | ⟨b, hb, ha, rfl⟩
      · exact Effect.quiet rfl (by simp) rfl rfl
      · by_cases hlast : b.refcnt - 1 = 0
        · simp only [Bufferevent.decrefAndUnlock, if_pos hlast]
          exact Effect.destroy (Or.inl rfl) hb ha hlast
        · simp only [Bufferevent.decrefAndUnlock, if_neg hlast]
          exact Effect.quiet rfl (by simp) rfl (Memory.status_setBev_eq hb rfl)

/-! ### The frames a statement leaves -/

/-- Which frames a statement can leave behind, and under which condition. -/
inductive Pushes (o : Outcome) (m : Memory) : Frame → Frame → Prop
  | created {sa : SockaddrIn} {p : Addr} (hp : m.heap p = none) :
      Pushes o m (.iocpListenerCb sa) (.listener .l236 m.nextConn p sa)
  | listener {l l' : ListenerLine} {c : ℕ} {p : Addr} {psin : SockaddrIn}
      (hl : l ≠ .l244) : Pushes o m (.listener l c p psin) (.listener l' c p psin)
  | listenerCall {l : ListenerLine} {c : ℕ} {p : Addr} {psin : SockaddrIn} {g : Frame}
      (hg : g = .considerReading .enable p ∨ g = .considerWriting p ∨
        g = .decrefAndUnlock p) : Pushes o m (.listener l c p psin) g
  | readcb {l l' : ReadLine} {p : Addr} : Pushes o m (.readcb l p) (.readcb l' p)
  | readcbCall {l : ReadLine} {p q : Addr} {g : Frame}
      (hg : g = .considerReading .inbuf q ∨ g = .considerWriting q ∨
        g = .decrefAndUnlock q) : Pushes o m (.readcb l p) g
  | eventcb {l l' : EventLine} {p : Addr} {w : What} :
      Pushes o m (.eventcb l p w) (.eventcb l' p w)
  | readFails {site : ReadSite} {p : Addr} {b : Bufferevent} {g : Frame}
      (hb : m.heap p = some b) (hw : b.wantsRead = true) (ho : o.launched = false)
      (hg : g = .runEventcb p .error ∨ g = .decref p) :
      Pushes o m (.considerReading site p) g
  | writeFails {p : Addr} {b : Bufferevent} (hb : m.heap p = some b)
      (hw : b.wantsWrite = true) (ho : o.launched = false) :
      Pushes o m (.considerWriting p) (.runEventcb p .error)
  | runReadcb {p : Addr} {b : Bufferevent} (hb : m.heap p = some b)
      (hcb : b.callbacks = true) : Pushes o m (.runReadcb p) (.readcb .l162 p)
  | runWritecb {p : Addr} : Pushes o m (.runWritecb p) (.writecb p)
  | runEventcb {p : Addr} {w : What} {b : Bufferevent} (hb : m.heap p = some b)
      (hcb : b.callbacks = true) : Pushes o m (.runEventcb p w) (.eventcb .l209 p w)

/-- The frames a reading call leaves. -/
theorem pushes_readBev {g : Bufferevent → List Print × List Frame}
    (hg : ∀ b, m.heap p = some b → ∀ f' ∈ (g b).2, Pushes o m f f')
    (h : m.readBev t p g = some r) : ∀ f' ∈ r.2, Pushes o m f f' := by
  rcases Memory.readBev_cases h with ⟨-, rfl⟩ | ⟨b, hb, -, rfl⟩
  · simp
  · exact hg b hb

/-- The frames a call leaves. -/
theorem pushes_onBev {dead : List Frame} {g : Bufferevent → Option Bufferevent × List Frame}
    (hdead : ∀ f' ∈ dead, Pushes o m f f')
    (hg : ∀ b, m.heap p = some b → ∀ f' ∈ (g b).2, Pushes o m f f')
    (h : m.onBev t p dead g = some r) : ∀ f' ∈ r.2, Pushes o m f f' := by
  rcases Memory.onBev_cases h with ⟨-, rfl⟩ | ⟨b, hb, -, rfl⟩
  · exact hdead
  · exact hg b hb

/-- A single frame left behind. -/
theorem pushes_single {g : Frame} (hg : Pushes o m f g) : ∀ f' ∈ [g], Pushes o m f f' := by
  intro f' hf'
  rw [List.mem_singleton.mp hf']
  exact hg

/-- The callback a libevent function runs when the callbacks are set. -/
theorem pushes_run {b : Bufferevent} {g : Frame}
    (hg : b.callbacks = true → Pushes o m f g) :
    ∀ f' ∈ (if b.callbacks then [g] else []), Pushes o m f f' := by
  cases hcb : b.callbacks with
  | false => simp
  | true => exact pushes_single (hg hcb)

theorem pushes_listener {line : ListenerLine} {c : ℕ} {psin : SockaddrIn}
    (h : execListener m t line c p psin = some r) :
    ∀ f' ∈ r.2, Pushes o m (.listener line c p psin) f' := by
  have hcall : ∀ {ok : Bool} {g : Frame} {l : ListenerLine}, line ≠ .l244 →
      (g = .considerReading .enable p ∨ g = .considerWriting p) →
      ∀ f' ∈ (if ok then [g] else []) ++ [.decrefAndUnlock p, .listener l c p psin],
        Pushes o m (.listener line c p psin) f' := by
    intro ok g l hl hg f' hf'
    rcases List.mem_append.mp hf' with hf' | hf'
    · obtain rfl : f' = g := by
        cases ok with
        | false => simp at hf'
        | true => exact List.mem_singleton.mp hf'
      rcases hg with rfl | rfl
      · exact Pushes.listenerCall (Or.inl rfl)
      · exact Pushes.listenerCall (Or.inr (Or.inl rfl))
    · rcases List.mem_pair.mp hf' with rfl | rfl
      · exact Pushes.listenerCall (Or.inr (Or.inr rfl))
      · exact Pushes.listener hl
  cases line with
  | l236 | l238 | l239 =>
      obtain rfl := Option.some.inj h
      exact pushes_single (Pushes.listener (by simp))
  | l240 =>
      exact pushes_onBev (pushes_single (Pushes.listener (by simp)))
        (fun b _ => pushes_single (Pushes.listener (by simp))) h
  | l241 =>
      exact pushes_onBev (pushes_single (Pushes.listener (by simp)))
        (fun b _ => hcall (by simp) (Or.inr rfl)) h
  | l242 =>
      exact pushes_onBev (pushes_single (Pushes.listener (by simp)))
        (fun b _ => hcall (by simp) (Or.inl rfl)) h
  | l244 =>
      refine pushes_onBev (by simp) (fun b _ f' hf' => ?_) h
      rcases List.mem_pair.mp hf' with rfl | rfl
      · exact Pushes.listenerCall (Or.inr (Or.inl rfl))
      · exact Pushes.listenerCall (Or.inr (Or.inr rfl))

theorem pushes_readcb {line : ReadLine} (h : execReadcb m t o p line = some r) :
    ∀ f' ∈ r.2, Pushes o m (.readcb line p) f' := by
  cases line with
  | l162 =>
      refine pushes_readBev (fun b _ => ?_) h
      by_cases hin : b.input = []
      · simp [hin]
      · simp only [if_neg hin]
        exact pushes_single Pushes.readcb
  | l171 =>
      refine pushes_onBev (pushes_single Pushes.readcb) (fun b _ f' hf' => ?_) h
      by_cases hin : b.input = []
      · simp only [if_pos hin] at hf'
        exact pushes_single Pushes.readcb f' hf'
      · simp only [if_neg hin, List.mem_cons, List.not_mem_nil, or_false] at hf'
        rcases hf' with rfl | rfl | rfl
        · exact Pushes.readcbCall (Or.inl rfl)
        · exact Pushes.readcbCall (Or.inr (Or.inr rfl))
        · exact Pushes.readcb
  | l173 buf =>
      obtain rfl := Option.some.inj h
      exact pushes_single Pushes.readcb
  | l177 buf itFind =>
      obtain rfl := Option.some.inj h
      exact pushes_single Pushes.readcb
  | l194 itFind a =>
      refine pushes_onBev (by simp) (fun b _ f' hf' => ?_) h
      rcases List.mem_pair.mp hf' with rfl | rfl
      · exact Pushes.readcbCall (Or.inr (Or.inl rfl))
      · exact Pushes.readcbCall (Or.inr (Or.inr rfl))

theorem pushes_eventcb {line : EventLine} {w : What}
    (h : execEventcb m t p w line = some r) :
    ∀ f' ∈ r.2, Pushes o m (.eventcb line p w) f' := by
  cases line with
  | l209 | l218 =>
      obtain rfl := Option.some.inj h
      exact pushes_single Pushes.eventcb
  | l219 => exact pushes_onBev (by simp) (by simp) h

/-- **The frames a statement can leave behind.** -/
theorem exec_pushes (h : exec t o f m = some r) : ∀ f' ∈ r.2, Pushes o m f f' := by
  cases f with
  | iocpListenerCb sa =>
      rcases exec_iocpListenerCb h with ⟨-, rfl⟩ | ⟨p, -, hp, rfl⟩
      · simp
      · exact pushes_single (Pushes.created hp)
  | listener line c p psin => exact pushes_listener h
  | readcb line p => exact pushes_readcb h
  | writecb p => exact pushes_readBev (by simp) h
  | eventcb line p w => exact pushes_eventcb h
  | considerReading site p =>
      refine pushes_onBev (by simp) (fun b hb f' hf' => ?_) h
      rw [bevAsyncConsiderReading] at hf'
      cases hw : b.wantsRead with
      | false => simp [hw] at hf'
      | true =>
          cases ho : o.launched with
          | true => simp [hw, ho] at hf'
          | false => exact Pushes.readFails hb hw ho (by simpa [hw, ho] using hf')
  | considerWriting p =>
      refine pushes_onBev (by simp) (fun b hb f' hf' => ?_) h
      rw [bevAsyncConsiderWriting] at hf'
      cases hw : b.wantsWrite with
      | false => simp [hw] at hf'
      | true =>
          cases ho : o.launched with
          | true => simp [hw, ho] at hf'
          | false =>
              obtain rfl : f' = .runEventcb p .error := by simpa [hw, ho] using hf'
              exact Pushes.writeFails hb hw ho
  | runReadcb p =>
      exact pushes_readBev (fun b hb => pushes_run fun hcb => Pushes.runReadcb hb hcb) h
  | runWritecb p =>
      exact pushes_readBev (fun b hb => pushes_run fun _ => Pushes.runWritecb) h
  | runEventcb p w =>
      exact pushes_readBev (fun b hb => pushes_run fun hcb => Pushes.runEventcb hb hcb) h
  | decref p => exact pushes_onBev (by simp) (by simp) h
  | decrefAndUnlock p => exact pushes_onBev (by simp) (by simp) h

end Exec

/-! ### Outside events -/

/-- A completion for `p` that makes libevent report EOF or an error. -/
def Event.Fails (p : Addr) : Event → Prop
  | .accept _ => False
  | .readComplete q data ok => q = p ∧ ¬ (ok = true ∧ data ≠ [])
  | .writeComplete q nbytes ok => q = p ∧ ¬ (ok = true ∧ nbytes ≠ 0)

/-- A completion that brings data of `p`. -/
def Event.Delivers (p : Addr) : Event → Prop
  | .readComplete q data ok => q = p ∧ ok = true ∧ data ≠ []
  | _ => False

/-- What a completion does to its bufferevent, and the frames it leaves above the one that
releases the reference kept for it. -/
structure Completion (e : Event) (t : Tid) (p : Addr) (b b' : Bufferevent)
    (pre : List Frame) : Prop where
  frames : ∀ f ∈ pre, (f = .runReadcb p ∧ b.ok = true ∧ e.Delivers p) ∨ f = .runWritecb p ∨
    (∃ w, f = .runEventcb p w ∧ b.ok = true ∧ e.Fails p) ∨
    f = .considerReading .complete p ∨ f = .considerWriting p
  lock : b'.lock = lockBy t b.lock
  refcnt : b'.refcnt = b.refcnt
  outside : b.outside = b'.outside + 1
  status : b'.status = b.status
  appended : b'.appended = b.appended

theorem completion_read (t : Tid) (p : Addr) (data : List Byte) (ok : Bool) {b : Bufferevent}
    (h : b.readInProgress ≠ 0) :
    ∃ b' pre, readComplete t p data ok b = (b', pre ++ [.decrefAndUnlock p]) ∧
      Completion (.readComplete p data ok) t p b b' pre := by
  have hout : ∀ b' : Bufferevent, b'.freed = b.freed → b'.readInProgress = 0 →
      b'.writeInProgress = b.writeInProgress → b.outside = b'.outside + 1 := by
    intro b' hf hr hw
    rw [Bufferevent.outside, Bufferevent.outside, hf, hr, hw, if_neg h, if_pos rfl]
    omega
  rw [readComplete]
  split
  · rename_i hok
    split
    · rename_i hgood
      refine ⟨_, [.runReadcb p, .considerReading .complete p], rfl, ?_, rfl, rfl,
        hout _ rfl rfl rfl, rfl, rfl⟩
      intro f hf
      rcases List.mem_pair.mp hf with rfl | rfl
      · exact Or.inl ⟨rfl, hok, rfl, by simpa using hgood⟩
      · simp
    · rename_i hbad
      refine ⟨_, [.runEventcb p (if ok then .eof else .error)], rfl, ?_, rfl, rfl,
        hout _ rfl rfl rfl, rfl, rfl⟩
      intro f hf
      rw [List.mem_singleton.mp hf]
      exact Or.inr (Or.inr (Or.inl ⟨_, rfl, hok, rfl, by simpa using hbad⟩))
  · exact ⟨_, [], rfl, by simp, rfl, rfl, hout _ rfl rfl rfl, rfl, rfl⟩

theorem completion_write (t : Tid) (p : Addr) (nbytes : ℕ) (ok : Bool) {b : Bufferevent}
    (h : b.writeInProgress ≠ 0) :
    ∃ b' pre, writeComplete t p nbytes ok b = (b', pre ++ [.decrefAndUnlock p]) ∧
      Completion (.writeComplete p nbytes ok) t p b b' pre := by
  have hout : ∀ b' : Bufferevent, b'.freed = b.freed → b'.writeInProgress = 0 →
      b'.readInProgress = b.readInProgress → b.outside = b'.outside + 1 := by
    intro b' hf hw hr
    rw [Bufferevent.outside, Bufferevent.outside, hf, hr, hw, if_neg h, if_pos rfl]
  rw [writeComplete]
  split
  · rename_i hok
    split
    · refine ⟨{ b with
          lock := lockBy t b.lock, output := b.output.drop nbytes, writeInProgress := 0 },
        (if b.output.drop nbytes = [] then [.runWritecb p] else []) ++ [.considerWriting p],
        ?_, ?_, rfl, rfl, hout _ rfl rfl rfl, rfl, rfl⟩
      · rw [List.append_assoc]
        rfl
      intro f hf
      rcases List.mem_append.mp hf with hf | hf
      · split at hf
        · exact Or.inr (Or.inl (List.mem_singleton.mp hf))
        · simp at hf
      · rw [List.mem_singleton.mp hf]
        simp
    · rename_i hbad
      refine ⟨_, [.runEventcb p (if ok then .eof else .error)], rfl, ?_, rfl, rfl,
        hout _ rfl rfl rfl, rfl, rfl⟩
      intro f hf
      rw [List.mem_singleton.mp hf]
      exact Or.inr (Or.inr (Or.inl ⟨_, rfl, hok, rfl, by simpa using hbad⟩))
  · exact ⟨_, [], rfl, by simp, rfl, rfl, hout _ rfl rfl rfl, rfl, rfl⟩

/-- When a read can complete, and what it then leaves. -/
theorem start_readComplete {t : Tid} {m : Memory} {p : Addr} {b : Bufferevent}
    {data : List Byte} {ok : Bool} {r : Memory × List Frame} (hp : m.heap p = some b)
    (h : start t (.readComplete p data ok) m = some r) :
    available t b.lock = true ∧ b.readInProgress ≠ 0 ∧ data.length ≤ b.readInProgress ∧
      r = (m.setBev p (some (readComplete t p data ok b).1), (readComplete t p data ok b).2) := by
  simp only [start, hp] at h
  split at h
  · rename_i hc
    simp only [Bool.and_eq_true, decide_eq_true_eq, ne_eq] at hc
    exact ⟨hc.1.1, hc.1.2, hc.2, (Option.some.inj h).symm⟩
  · simp at h

/-- When a write can complete, and what it then leaves. -/
theorem start_writeComplete {t : Tid} {m : Memory} {p : Addr} {b : Bufferevent} {nbytes : ℕ}
    {ok : Bool} {r : Memory × List Frame} (hp : m.heap p = some b)
    (h : start t (.writeComplete p nbytes ok) m = some r) :
    available t b.lock = true ∧ b.writeInProgress ≠ 0 ∧ nbytes ≤ b.writeInProgress ∧
      r = (m.setBev p (some (writeComplete t p nbytes ok b).1),
        (writeComplete t p nbytes ok b).2) := by
  simp only [start, hp] at h
  split at h
  · rename_i hc
    simp only [Bool.and_eq_true, decide_eq_true_eq, ne_eq] at hc
    exact ⟨hc.1.1, hc.1.2, hc.2, (Option.some.inj h).symm⟩
  · simp at h

/-- **What an outside event can do**: it starts the accept callback, or completes an
operation in progress. -/
theorem start_cases {t : Tid} {e : Event} {m : Memory} {r : Memory × List Frame}
    (h : start t e m = some r) :
    (∃ sa, e = .accept sa ∧ r = (m, [.iocpListenerCb sa])) ∨
    (∃ p b b' pre, m.heap p = some b ∧ available t b.lock = true ∧
      r = (m.setBev p (some b'), pre ++ [.decrefAndUnlock p]) ∧
      Completion e t p b b' pre) := by
  cases e with
  | accept sa =>
      obtain rfl := Option.some.inj h
      exact Or.inl ⟨sa, rfl, rfl⟩
  | readComplete p data ok =>
      cases hb : m.heap p with
      | none => simp [start, hb] at h
      | some b =>
          obtain ⟨ha, hrip, -, rfl⟩ := start_readComplete hb h
          obtain ⟨b', pre, hres, hcomp⟩ := completion_read t p data ok hrip
          rw [hres]
          exact Or.inr ⟨p, b, b', pre, hb, ha, rfl, hcomp⟩
  | writeComplete p nbytes ok =>
      cases hb : m.heap p with
      | none => simp [start, hb] at h
      | some b =>
          obtain ⟨ha, hwip, -, rfl⟩ := start_writeComplete hb h
          obtain ⟨b', pre, hres, hcomp⟩ := completion_write t p nbytes ok hwip
          rw [hres]
          exact Or.inr ⟨p, b, b', pre, hb, ha, rfl, hcomp⟩

/-- Which frames an outside event leaves, and under which condition. -/
inductive Starts (e : Event) (m : Memory) : Frame → Prop
  | accept {sa : SockaddrIn} (he : e = .accept sa) : Starts e m (.iocpListenerCb sa)
  | reads {p : Addr} {b : Bufferevent} (hb : m.heap p = some b) (hok : b.ok = true)
      (he : e.Delivers p) : Starts e m (.runReadcb p)
  | fails {p : Addr} {w : What} {b : Bufferevent} (hb : m.heap p = some b)
      (hok : b.ok = true) (he : e.Fails p) : Starts e m (.runEventcb p w)
  | calls {p : Addr} {g : Frame} (hg : g = .runWritecb p ∨ g = .considerReading .complete p ∨
      g = .considerWriting p ∨ g = .decrefAndUnlock p) : Starts e m g

/-- The frames an outside event can leave. -/
theorem start_pushes {t : Tid} {e : Event} {m : Memory} {r : Memory × List Frame}
    (h : start t e m = some r) : ∀ g ∈ r.2, Starts e m g := by
  intro g hg
  rcases start_cases h with ⟨sa, he, rfl⟩ | ⟨p, b, b', pre, hb, -, rfl, hcomp⟩
  · rw [List.mem_singleton.mp hg]
    exact Starts.accept he
  · rcases List.mem_append.mp hg with hg | hg
    · rcases hcomp.frames g hg with ⟨rfl, hok, he⟩ | rfl | ⟨w, rfl, hok, he⟩ | rfl | rfl
      · exact Starts.reads hb hok he
      · exact Starts.calls (Or.inl rfl)
      · exact Starts.fails hb hok he
      · exact Starts.calls (Or.inr (Or.inl rfl))
      · exact Starts.calls (Or.inr (Or.inr (Or.inl rfl)))
    · exact Starts.calls (Or.inr (Or.inr (Or.inr (List.mem_singleton.mp hg))))

/-- An outside event changes neither registry nor statuses. -/
theorem start_quiet {t : Tid} {e : Event} {m : Memory} {r : Memory × List Frame}
    (h : start t e m = some r) : r.1.mapClient = m.mapClient ∧ r.1.status = m.status := by
  rcases start_cases h with ⟨sa, -, rfl⟩ | ⟨p, b, b', pre, hb, -, rfl, hcomp⟩
  · exact ⟨rfl, rfl⟩
  · exact ⟨rfl, Memory.status_setBev_eq hb (congrArg some hcomp.status)⟩

end IocpEcho
