import Mathlib.Data.Int.Notation
import Mathlib.Data.List.Basic
import Mathlib.Tactic.Common

/-!
# What `Init` creates and the Destructor frees

`EventIOCPServer::Init` creates a configuration, an event base, a listener and a signal event
and gives up at the first of them that fails; the destructor frees the listener, the signal
event and the base, in this order, whatever the members hold
(`Server/EventServer/EventServer.cpp`, lines 257–324). The constructor assigns no member, a
failed `Init` undoes nothing, and `main` destroys the server also after an `Init` that
returned false.

This module runs one server through any number of `Init` calls, with any pattern of failures,
and its destructor. Objects carry the number of their creation, so that every creation and
every free can be counted.

The configuration is a local of `Init` that no path frees, and without a configuration no
member is ever assigned, so no sequence of calls is balanced (`not_released_lifetime`). The
three members alone are balanced exactly when one call creates all three, no earlier call
creates a base, and every later call fails at its configuration (`membersReleased_iff`).

## Main results

* `EventIOCPServer.initLeaves_init`: what a call of `Init` leaves, for each place where it can
  stop.
* `membersReleased_iff`: when base, listener and signal event are freed exactly once.
* `not_released_lifetime`: no sequence of calls is balanced.
-/

namespace IocpEcho

/-! ### The server object -/

/-- The value of a pointer: indeterminate, null, or the object of that number. -/
inductive Ptr
  | unassigned
  | null
  | object (id : ℕ)
  deriving DecidableEq

/-- The libevent objects that `Init` creates. -/
inductive ObjectKind
  | config
  | base
  | listener
  | signalEvent
  deriving DecidableEq

/-- The members of a server, and the objects created and freed on its behalf. -/
structure Holdings where
  base : Ptr
  listener : Ptr
  signal_event : Ptr
  nextId : ℕ
  created : List (ObjectKind × ℕ)
  freed : List (ObjectKind × Ptr)

/-- A line of output. -/
inductive ServerPrint
  | stderr (text : String)
  | listening (Port : ℤ)
  | done

/-- An `EventIOCPServer` with its surroundings: the ports it asked a listener for, the bases
its threads dispatch, and its output. -/
structure EventIOCPServer extends Holdings where
  bound : List UInt16
  dispatching : List Ptr
  printed : List ServerPrint

/-- One call of `Init`: its argument, and which of the libevent calls succeed. -/
structure InitCall where
  port : ℤ
  eventConfigNew : Bool
  eventBaseNewWithConfig : Bool
  evconnlistenerNewBind : Bool
  evsignalNew : Bool
  eventAdd : Bool
  deriving DecidableEq

/-- The call gets as far as a base. -/
def InitCall.createsBase (call : InitCall) : Bool :=
  call.eventConfigNew && call.eventBaseNewWithConfig

/-- The call creates an object for each member. -/
def InitCall.createsAll (call : InitCall) : Bool :=
  call.createsBase && call.evconnlistenerNewBind && call.evsignalNew

/-- `PORT`. -/
def defaultPort : ℤ := 9995

/-- `htons`. -/
def htons (n : UInt16) : UInt16 :=
  (n <<< 8) ||| (n >>> 8)

namespace Holdings

/-- A creation: a new object, or null. -/
def create (h : Holdings) (k : ObjectKind) (ok : Bool) : Ptr × Holdings :=
  if ok then
    (.object h.nextId,
      { h with nextId := h.nextId + 1, created := h.created ++ [(k, h.nextId)] })
  else (.null, h)

/-- A free of whatever a member holds. -/
def free (h : Holdings) (k : ObjectKind) (p : Ptr) : Holdings :=
  { h with freed := h.freed ++ [(k, p)] }

end Holdings

namespace EventIOCPServer

/-- The constructor: no member is assigned. -/
def new : EventIOCPServer where
  base := .unassigned
  listener := .unassigned
  signal_event := .unassigned
  nextId := 0
  created := []
  freed := []
  bound := []
  dispatching := []
  printed := []

/-- `Init`. -/
def init (s : EventIOCPServer) (call : InitCall) : EventIOCPServer × Bool :=
  let Port := if call.port ≤ 0 then defaultPort else call.port
  let sin_port := htons (UInt16.ofInt Port)
  let (cfg, h) := s.toHoldings.create .config call.eventConfigNew
  let s := { s with toHoldings := h }
  if cfg = .null then
    ({ s with printed := s.printed ++ [.stderr "Could not initialize event_config!\n"] }, false)
  else
    let (base, h) := s.toHoldings.create .base call.eventBaseNewWithConfig
    let s := { s with toHoldings := { h with base := base } }
    if base = .null then
      ({ s with printed := s.printed ++ [.stderr "Could not initialize libevent!\n"] }, false)
    else
      let (listener, h) := s.toHoldings.create .listener call.evconnlistenerNewBind
      let s := { s with
        toHoldings := { h with listener := listener }
        bound := s.bound ++ [sin_port] }
      if listener = .null then
        ({ s with printed := s.printed ++ [.stderr "Could not create a listener!\n"] }, false)
      else
        let (signal_event, h) := s.toHoldings.create .signalEvent call.evsignalNew
        let s := { s with toHoldings := { h with signal_event := signal_event } }
        if signal_event = .null ∨ call.eventAdd = false then
          ({ s with
            printed := s.printed ++ [.stderr "Could not create/add a signal event!\n"] }, false)
        else
          ({ s with
            dispatching := s.dispatching ++ [s.base]
            printed := s.printed ++ [.listening Port] }, true)

/-- `~EventIOCPServer`. -/
def destructor (s : EventIOCPServer) : EventIOCPServer :=
  { s with
    toHoldings := ((s.toHoldings.free .listener s.listener).free .signalEvent
      s.signal_event).free .base s.base
    printed := s.printed ++ [.done] }

/-- A server after a sequence of `Init` calls. -/
def initAll (s : EventIOCPServer) (calls : List InitCall) : EventIOCPServer :=
  calls.foldl (fun s call => (s.init call).1) s

/-- A server from its constructor to its destructor. -/
def lifetime (calls : List InitCall) : EventIOCPServer :=
  (new.initAll calls).destructor

/-- The objects of the kinds in `P` are balanced: each one created was freed exactly once, and
nothing was freed through a pointer that is null or was never assigned. -/
structure Released (P : ObjectKind → Prop) (s : EventIOCPServer) : Prop where
  once : ∀ k id, P k → (k, id) ∈ s.created → s.freed.count (k, Ptr.object id) = 1
  valid : ∀ x ∈ s.freed, ∃ id, x.2 = Ptr.object id

end EventIOCPServer

/-! ### What one call leaves -/

/-- What a call of `Init` leaves, by the place where it stops. A signal event that cannot be
added stays with the server like one that can. -/
inductive InitLeaves (h : Holdings) (call : InitCall) : Holdings → Prop
  | noConfig : call.eventConfigNew = false → InitLeaves h call h
  | noBase : call.eventConfigNew = true → call.eventBaseNewWithConfig = false →
      InitLeaves h call { h with
        base := .null
        nextId := h.nextId + 1
        created := h.created ++ [(.config, h.nextId)] }
  | noListener : call.eventConfigNew = true → call.eventBaseNewWithConfig = true →
      call.evconnlistenerNewBind = false →
      InitLeaves h call { h with
        base := .object (h.nextId + 1)
        listener := .null
        nextId := h.nextId + 2
        created := h.created ++ [(.config, h.nextId), (.base, h.nextId + 1)] }
  | noSignal : call.eventConfigNew = true → call.eventBaseNewWithConfig = true →
      call.evconnlistenerNewBind = true → call.evsignalNew = false →
      InitLeaves h call { h with
        base := .object (h.nextId + 1)
        listener := .object (h.nextId + 2)
        signal_event := .null
        nextId := h.nextId + 3
        created := h.created ++
          [(.config, h.nextId), (.base, h.nextId + 1), (.listener, h.nextId + 2)] }
  | whole : call.eventConfigNew = true → call.eventBaseNewWithConfig = true →
      call.evconnlistenerNewBind = true → call.evsignalNew = true →
      InitLeaves h call { h with
        base := .object (h.nextId + 1)
        listener := .object (h.nextId + 2)
        signal_event := .object (h.nextId + 3)
        nextId := h.nextId + 4
        created := h.created ++
          [(.config, h.nextId), (.base, h.nextId + 1), (.listener, h.nextId + 2),
            (.signalEvent, h.nextId + 3)] }

namespace EventIOCPServer

/-- **What a call of `Init` leaves.** -/
theorem initLeaves_init (s : EventIOCPServer) (call : InitCall) :
    InitLeaves s.toHoldings call (s.init call).1.toHoldings := by
  cases hc : call.eventConfigNew with
  | false =>
      have hinit : (s.init call).1.toHoldings = s.toHoldings := by
        simp [init, Holdings.create, hc]
      rw [hinit]
      exact .noConfig hc
  | true =>
      cases hb : call.eventBaseNewWithConfig with
      | false =>
          convert InitLeaves.noBase hc hb using 1
          simp [init, Holdings.create, hc, hb]
      | true =>
          cases hl : call.evconnlistenerNewBind with
          | false =>
              convert InitLeaves.noListener hc hb hl using 1
              simp [init, Holdings.create, hc, hb, hl]
          | true =>
              cases hs : call.evsignalNew with
              | false =>
                  convert InitLeaves.noSignal hc hb hl hs using 1
                  simp [init, Holdings.create, hc, hb, hl, hs]
              | true =>
                  convert InitLeaves.whole hc hb hl hs using 1
                  cases ha : call.eventAdd with
                  | false => simp [init, Holdings.create, hc, hb, hl, hs, ha]
                  | true => simp [init, Holdings.create, hc, hb, hl, hs, ha]

/-- What every call keeps holds after all calls. -/
theorem initAll_invariant {I : Holdings → Prop} {calls : List InitCall}
    (hstep : ∀ call ∈ calls, ∀ h h', I h → InitLeaves h call h' → I h')
    {s : EventIOCPServer} (h0 : I s.toHoldings) : I (s.initAll calls).toHoldings := by
  induction calls generalizing s with
  | nil => exact h0
  | cons call calls ih =>
      refine ih (fun c hc => hstep c (List.mem_cons_of_mem call hc)) ?_
      exact hstep call List.mem_cons_self _ _ h0 (initLeaves_init s call)

/-- What the destructor frees after calls that freed nothing. -/
theorem freed_destructor {s : EventIOCPServer} (h : s.freed = []) :
    s.destructor.freed = [(.listener, s.listener), (.signalEvent, s.signal_event),
      (.base, s.base)] := by
  simp [destructor, Holdings.free, h]

end EventIOCPServer

/-! ### The phases of a server -/

namespace Holdings

/-- Objects are numbered in the order of their creation, and none has been freed. -/
structure Numbered (h : Holdings) : Prop where
  lt : ∀ x ∈ h.created, x.2 < h.nextId
  freed : h.freed = []

/-- No base has been created, and `listener` was never assigned. -/
structure Clean (h : Holdings) : Prop where
  listener : h.listener = .unassigned
  created : ∀ x ∈ h.created, x.1 = .config

/-- One object of each member has been created, and the members hold them. -/
def Whole (h : Holdings) : Prop :=
  ∃ b l e, h.base = .object b ∧ h.listener = .object l ∧ h.signal_event = .object e ∧
    h.created.filter (fun x => x.1 ≠ .config)
      = [(.base, b), (.listener, l), (.signalEvent, e)]

/-- A base has been created that `base` does not hold, or that came without a listener or
without a signal event. -/
def Broken (h : Holdings) : Prop :=
  ∃ id, (.base, id) ∈ h.created ∧
    (h.base ≠ .object id ∨ (∀ l, h.listener ≠ .object l) ∨ ∀ e, h.signal_event ≠ .object e)

/-- Every call keeps the numbering. -/
theorem Numbered.initLeaves {h h' : Holdings} {call : InitCall} (hn : h.Numbered)
    (hinit : InitLeaves h call h') : h'.Numbered := by
  have hlt : ∀ x ∈ h.created, ∀ k, x.2 < h.nextId + k := by
    intro x hx k
    have := hn.lt x hx
    omega
  cases hinit with
  | noConfig _ => exact hn
  | noBase _ _ | noListener _ _ _ | noSignal _ _ _ _ | whole _ _ _ _ =>
      refine ⟨fun x hx => ?_, hn.freed⟩
      rcases List.mem_append.mp hx with hx | hx
      · exact hlt x hx _
      · simp only [List.mem_cons, List.not_mem_nil, or_false] at hx
        rcases hx with rfl | rfl | rfl | rfl <;> simp

/-- A call keeps a clean server clean until it creates a base; it then makes the server whole
or breaks it. -/
theorem Clean.initLeaves {h h' : Holdings} {call : InitCall} (hclean : h.Clean)
    (hinit : InitLeaves h call h') :
    (h'.Clean ∧ call.createsBase = false) ∨ (h'.Whole ∧ call.createsAll = true) ∨
      (h'.Broken ∧ call.createsBase = true ∧ call.createsAll = false) := by
  have hconfig : ∀ n, ∀ x ∈ h.created ++ [(.config, n)], x.1 = ObjectKind.config := by
    intro n x hx
    rcases List.mem_append.mp hx with hx | hx
    · exact hclean.created x hx
    · rw [List.mem_singleton.mp hx]
  cases hinit with
  | noConfig hc => exact Or.inl ⟨hclean, by simp [InitCall.createsBase, hc]⟩
  | noBase hc hb =>
      exact Or.inl ⟨⟨hclean.listener, hconfig _⟩, by simp [InitCall.createsBase, hb]⟩
  | noListener hc hb hl =>
      refine Or.inr (Or.inr ⟨⟨h.nextId + 1, by simp, Or.inr (Or.inl (by simp))⟩, ?_⟩)
      simp [InitCall.createsAll, InitCall.createsBase, hc, hb, hl]
  | noSignal hc hb hl hs =>
      refine Or.inr (Or.inr ⟨⟨h.nextId + 1, by simp, Or.inr (Or.inr (by simp))⟩, ?_⟩)
      simp [InitCall.createsAll, InitCall.createsBase, hc, hb, hs]
  | whole hc hb hl hs =>
      have hnone : h.created.filter (fun x => x.1 ≠ .config) = [] := by
        refine List.filter_eq_nil_iff.mpr fun x hx => ?_
        simp [hclean.created x hx]
      refine Or.inr (Or.inl ⟨⟨_, _, _, rfl, rfl, rfl, ?_⟩, ?_⟩)
      · rw [List.filter_append, hnone]
        simp
      · simp [InitCall.createsAll, InitCall.createsBase, hc, hb, hl, hs]

/-- A call that gets no configuration leaves everything as it was. -/
theorem eq_of_noConfig {h h' : Holdings} {call : InitCall} (hinit : InitLeaves h call h')
    (hc : call.eventConfigNew = false) : h' = h := by
  cases hinit with
  | noConfig _ => rfl
  | noBase hc' _ | noListener hc' _ _ | noSignal hc' _ _ _ | whole hc' _ _ _ =>
      rw [hc] at hc'
      cases hc'

/-- A call that gets a configuration creates it first and then overwrites `base`. -/
theorem overwrites_of_config {h h' : Holdings} {call : InitCall}
    (hinit : InitLeaves h call h') (hc : call.eventConfigNew = true) :
    (∃ new, h'.created = h.created ++ (.config, h.nextId) :: new) ∧
      (h'.base = .null ∨ h'.base = .object (h.nextId + 1)) := by
  cases hinit with
  | noConfig hc' =>
      rw [hc] at hc'
      cases hc'
  | noBase _ _ => exact ⟨⟨_, rfl⟩, Or.inl rfl⟩
  | noListener _ _ _ | noSignal _ _ _ _ | whole _ _ _ _ => exact ⟨⟨_, rfl⟩, Or.inr rfl⟩

/-- No call takes back what was created. -/
theorem mem_created_of_initLeaves {h h' : Holdings} {call : InitCall} {x : ObjectKind × ℕ}
    (hx : x ∈ h.created) (hinit : InitLeaves h call h') : x ∈ h'.created := by
  cases hc : call.eventConfigNew with
  | false => exact eq_of_noConfig hinit hc ▸ hx
  | true =>
      obtain ⟨⟨new, hnew⟩, -⟩ := overwrites_of_config hinit hc
      rw [hnew]
      exact List.mem_append_left _ hx

/-- A base created before a call that gets a configuration is lost. -/
theorem broken_of_overwrite {h h' : Holdings} {call : InitCall} (hn : h.Numbered) {id : ℕ}
    (hid : (.base, id) ∈ h.created) (hinit : InitLeaves h call h')
    (hc : call.eventConfigNew = true) : h'.Broken := by
  have hlt : id < h.nextId := hn.lt _ hid
  refine ⟨id, mem_created_of_initLeaves hid hinit, Or.inl fun heq => ?_⟩
  rcases (overwrites_of_config hinit hc).2 with hbase | hbase
  · rw [hbase] at heq
    cases heq
  · have hnum := Ptr.object.inj (hbase.symm.trans heq)
    omega

/-- A call keeps a whole server whole, or breaks it. -/
theorem Whole.initLeaves {h h' : Holdings} {call : InitCall} (hn : h.Numbered)
    (hwhole : h.Whole) (hinit : InitLeaves h call h') :
    (h'.Whole ∧ call.eventConfigNew = false) ∨ h'.Broken := by
  cases hc : call.eventConfigNew with
  | false => exact Or.inl ⟨eq_of_noConfig hinit hc ▸ hwhole, rfl⟩
  | true =>
      obtain ⟨b, l, e, -, -, -, hcreated⟩ := hwhole
      have hb : (.base, b) ∈ h.created.filter fun x => x.1 ≠ ObjectKind.config := by
        rw [hcreated]
        exact List.mem_cons_self
      exact Or.inr (broken_of_overwrite hn (List.mem_filter.mp hb).1 hinit hc)

/-- A broken server stays broken. -/
theorem Broken.initLeaves {h h' : Holdings} {call : InitCall} (hn : h.Numbered)
    (hbroken : h.Broken) (hinit : InitLeaves h call h') : h'.Broken := by
  cases hc : call.eventConfigNew with
  | false => exact eq_of_noConfig hinit hc ▸ hbroken
  | true =>
      obtain ⟨id, hid, -⟩ := hbroken
      exact broken_of_overwrite hn hid hinit hc

end Holdings

namespace EventIOCPServer

/-- The destructor of a whole server frees each member's object once. -/
theorem released_of_whole {s : EventIOCPServer} (hn : s.Numbered) (h : s.Whole) :
    s.destructor.Released (· ≠ .config) := by
  obtain ⟨b, l, e, hbase, hlistener, hsignal, hcreated⟩ := h
  have hfreed := freed_destructor hn.freed
  rw [hbase, hlistener, hsignal] at hfreed
  constructor
  · intro k id hk hmem
    have hfilter : (k, id) ∈ s.created.filter fun x => x.1 ≠ ObjectKind.config :=
      List.mem_filter.mpr ⟨hmem, by simpa using hk⟩
    rw [hcreated] at hfilter
    simp only [List.mem_cons, List.not_mem_nil, or_false, Prod.mk.injEq] at hfilter
    rw [hfreed]
    rcases hfilter with ⟨rfl, rfl⟩ | ⟨rfl, rfl⟩ | ⟨rfl, rfl⟩ <;> simp
  · intro x hx
    rw [hfreed] at hx
    simp only [List.mem_cons, List.not_mem_nil, or_false] at hx
    rcases hx with rfl | rfl | rfl
    · exact ⟨l, rfl⟩
    · exact ⟨e, rfl⟩
    · exact ⟨b, rfl⟩

/-- A member through which the destructor frees an object holds one. -/
theorem Released.members {P : ObjectKind → Prop} {s : EventIOCPServer} (hn : s.Numbered)
    (h : s.destructor.Released P) :
    (∃ l, s.listener = .object l) ∧ ∃ e, s.signal_event = .object e := by
  have hfreed := freed_destructor hn.freed
  constructor
  · exact h.valid (.listener, s.listener) (by simp [hfreed])
  · exact h.valid (.signalEvent, s.signal_event) (by simp [hfreed])

/-- The destructor of a broken server does not balance the members. -/
theorem not_released_of_broken {s : EventIOCPServer} (hn : s.Numbered) (h : s.Broken) :
    ¬ s.destructor.Released (· ≠ .config) := by
  intro hrel
  obtain ⟨id, hid, hbase | hlistener | hsignal⟩ := h
  · have honce := hrel.once .base id (by simp) hid
    rw [freed_destructor hn.freed] at honce
    simp [hbase] at honce
  · obtain ⟨l, hl⟩ := (Released.members hn hrel).1
    exact hlistener l hl
  · obtain ⟨e, he⟩ := (Released.members hn hrel).2
    exact hsignal e he

/-- The destructor of a clean server frees a member that was never assigned. -/
theorem not_released_of_clean {P : ObjectKind → Prop} {s : EventIOCPServer} (hn : s.Numbered)
    (h : s.Clean) : ¬ s.destructor.Released P := by
  intro hrel
  obtain ⟨l, hl⟩ := (Released.members hn hrel).1
  rw [h.listener] at hl
  cases hl

/-! ### Whole lifetimes -/

theorem numbered_new : new.Numbered :=
  ⟨fun _ hx => absurd hx List.not_mem_nil, rfl⟩

theorem clean_new : new.Clean :=
  ⟨rfl, fun _ hx => absurd hx List.not_mem_nil⟩

/-- The numbering holds after all calls. -/
theorem numbered_initAll {s : EventIOCPServer} (hn : s.Numbered) (calls : List InitCall) :
    (s.initAll calls).Numbered :=
  initAll_invariant (fun _ _ _ _ => Holdings.Numbered.initLeaves) hn

/-- Calls that get no configuration leave everything as it was. -/
theorem initAll_of_noConfig {s : EventIOCPServer} {calls : List InitCall}
    (h : ∀ call ∈ calls, call.eventConfigNew = false) :
    (s.initAll calls).toHoldings = s.toHoldings := by
  refine initAll_invariant (I := fun h' => h' = s.toHoldings)
    (fun call hcall h₁ h₂ heq hinit => ?_) rfl
  rw [← heq]
  exact Holdings.eq_of_noConfig hinit (h call hcall)

/-- One call creates an object for each member, no earlier call creates a base, and every
later call fails at its configuration. -/
def WholeOnce (calls : List InitCall) : Prop :=
  ∃ before call after, calls = before ++ call :: after ∧
    (∀ c ∈ before, c.createsBase = false) ∧ call.createsAll = true ∧
    ∀ c ∈ after, c.eventConfigNew = false

/-- A broken server is broken after all calls. -/
theorem broken_initAll {s : EventIOCPServer} (hn : s.Numbered) (hbroken : s.Broken)
    (calls : List InitCall) : (s.initAll calls).Broken := by
  have hboth : (s.initAll calls).Numbered ∧ (s.initAll calls).Broken :=
    initAll_invariant (I := fun h => h.Numbered ∧ h.Broken)
      (fun _ _ _ _ h hinit => ⟨h.1.initLeaves hinit, Holdings.Broken.initLeaves h.1 h.2 hinit⟩)
      ⟨hn, hbroken⟩
  exact hboth.2

/-- A whole server stays whole over calls that get no configuration, and is broken by the
first that gets one. -/
theorem whole_initAll {s : EventIOCPServer} (hn : s.Numbered) (hwhole : s.Whole)
    (calls : List InitCall) :
    (∀ call ∈ calls, call.eventConfigNew = false) ∨ (s.initAll calls).Broken := by
  induction calls generalizing s with
  | nil => exact Or.inl fun _ hc => absurd hc List.not_mem_nil
  | cons call calls ih =>
      have hinit := initLeaves_init s call
      rcases Holdings.Whole.initLeaves hn hwhole hinit with ⟨hwhole', hc⟩ | hbroken
      · rcases ih (hn.initLeaves hinit) hwhole' with hall | hbroken
        · exact Or.inl (List.forall_mem_cons.mpr ⟨hc, hall⟩)
        · exact Or.inr hbroken
      · exact Or.inr (broken_initAll (hn.initLeaves hinit) hbroken calls)

/-- A clean server ends clean, or is made whole once, or is broken. -/
theorem clean_initAll {s : EventIOCPServer} (hn : s.Numbered) (hclean : s.Clean)
    (calls : List InitCall) :
    (s.initAll calls).Clean ∨ WholeOnce calls ∨ (s.initAll calls).Broken := by
  induction calls generalizing s with
  | nil => exact Or.inl hclean
  | cons call calls ih =>
      have hinit := initLeaves_init s call
      have hn' := hn.initLeaves hinit
      rcases hclean.initLeaves hinit with ⟨hclean', hbase⟩ | ⟨hwhole, hall⟩ | ⟨hbroken, -⟩
      · rcases ih hn' hclean' with hc | ⟨before, c, after, rfl, hbefore, hc⟩ | hbroken
        · exact Or.inl hc
        · refine Or.inr (Or.inl ⟨call :: before, c, after, rfl, ?_, hc⟩)
          exact List.forall_mem_cons.mpr ⟨hbase, hbefore⟩
        · exact Or.inr (Or.inr hbroken)
      · rcases whole_initAll hn' hwhole calls with hafter | hbroken
        · refine Or.inr (Or.inl ⟨[], call, calls, rfl, ?_, hall, hafter⟩)
          exact fun _ hc => absurd hc List.not_mem_nil
        · exact Or.inr (Or.inr hbroken)
      · exact Or.inr (Or.inr (broken_initAll hn' hbroken calls))

/-- A clean server that is made whole once ends whole. -/
theorem whole_of_wholeOnce {s : EventIOCPServer} (hclean : s.Clean) {calls : List InitCall}
    (h : WholeOnce calls) : (s.initAll calls).Whole := by
  obtain ⟨before, call, after, rfl, hbefore, hcall, hafter⟩ := h
  have hclean' : (s.initAll before).Clean := by
    refine initAll_invariant (fun c hc h₁ h₂ h₁clean hinit => ?_) hclean
    rcases h₁clean.initLeaves hinit with ⟨h₂clean, -⟩ | ⟨-, hall⟩ | ⟨-, hbase, -⟩
    · exact h₂clean
    · rw [InitCall.createsAll, hbefore c hc] at hall
      cases hall
    · rw [hbefore c hc] at hbase
      cases hbase
  have hwhole : ((s.initAll before).init call).1.Whole := by
    rcases hclean'.initLeaves (initLeaves_init _ call) with
      ⟨-, hbase⟩ | ⟨hwhole, -⟩ | ⟨-, -, hall⟩
    · rw [InitCall.createsAll, hbase] at hcall
      cases hcall
    · exact hwhole
    · rw [hcall] at hall
      cases hall
  have hsplit : s.initAll (before ++ call :: after)
      = ((s.initAll before).init call).1.initAll after := by
    simp [initAll]
  rw [hsplit, initAll_of_noConfig hafter]
  exact hwhole

/-- **The members are balanced exactly when they are created once, together and last.** -/
theorem membersReleased_iff (calls : List InitCall) :
    (lifetime calls).Released (· ≠ .config) ↔ WholeOnce calls := by
  have hn := numbered_initAll numbered_new calls
  constructor
  · intro hrel
    rcases clean_initAll numbered_new clean_new calls with hclean | honce | hbroken
    · exact absurd hrel (not_released_of_clean hn hclean)
    · exact honce
    · exact absurd hrel (not_released_of_broken hn hbroken)
  · intro honce
    exact released_of_whole hn (whole_of_wholeOnce clean_new honce)

/-- A configuration that some call gets stays among the objects created. -/
theorem config_mem_initAll {s : EventIOCPServer} {calls : List InitCall} {call : InitCall}
    (hcall : call ∈ calls) (hc : call.eventConfigNew = true) :
    ∃ id, (.config, id) ∈ (s.initAll calls).created := by
  induction calls generalizing s with
  | nil => exact absurd hcall List.not_mem_nil
  | cons c calls ih =>
      rcases List.mem_cons.mp hcall with rfl | hcall
      · obtain ⟨⟨new, hnew⟩, -⟩ := Holdings.overwrites_of_config (initLeaves_init s call) hc
        have hmem : (.config, s.nextId) ∈ (s.init call).1.created := by
          rw [hnew]
          exact List.mem_append_right _ List.mem_cons_self
        refine ⟨s.nextId, ?_⟩
        exact initAll_invariant (I := fun h => (.config, s.nextId) ∈ h.created)
          (fun _ _ _ _ => Holdings.mem_created_of_initLeaves) hmem
      · exact ih hcall

/-- **No sequence of calls is balanced.** A configuration is never freed, and a server that
never got one frees members that were never assigned. -/
theorem not_released_lifetime (call : InitCall) (calls : List InitCall) :
    ¬ (lifetime (call :: calls)).Released fun _ => True := by
  have hn := numbered_initAll numbered_new (call :: calls)
  by_cases hnone : ∀ c ∈ call :: calls, c.eventConfigNew = false
  · refine not_released_of_clean hn ?_
    rw [initAll_of_noConfig hnone]
    exact clean_new
  · intro hrel
    push Not at hnone
    obtain ⟨c, hmem, hc⟩ := hnone
    obtain ⟨id, hid⟩ := config_mem_initAll hmem (Bool.not_eq_false _ ▸ hc)
    have honce := hrel.once .config id trivial hid
    rw [lifetime, freed_destructor hn.freed] at honce
    simp at honce

/-- The call of `main` when everything succeeds. -/
def mainCall : InitCall := ⟨0, true, true, true, true, true⟩

/-- `main`'s call succeeds, and its configuration is never freed. -/
theorem not_released_mainCall :
    (new.init mainCall).2 = true ∧ ¬ (lifetime [mainCall]).Released fun _ => True := by
  refine ⟨by decide, fun hrel => ?_⟩
  have honce := hrel.once .config 0 trivial (by decide)
  exact absurd honce (by decide)

end EventIOCPServer

end IocpEcho
