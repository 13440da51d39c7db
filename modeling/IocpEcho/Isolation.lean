import IocpEcho.Callbacks

/-!
# Clients do not influence each other's Replies

All connections share `map_Client`, and the reply to one of them is built from what the map
holds at that moment under an address that earlier connections may have had. This module
takes the callbacks of the server as atomic steps, which is what they are as long as libevent
reports no error from inside them, and proves that the writes to a connection are a function
of what happens to that connection alone: its peer address, its chunks and the clock at these
chunks. So two runs that agree on one connection write the same to it, whatever they do with
the others and whichever addresses the allocator returns.

A connection is named by the number of its creation, since its address is not its own. The
state records for every `bufferevent_write` which connection's callback made it and which
connection it went to, and for every connection what has happened to it.

## Main results

* `served_of_reach`: the writes to a connection are `outputs` of its history, and every
  callback writes to its own connection only.
* `replies_isolated`: the two-run statement.
-/

namespace IocpEcho

open Interleaving Terminated

/-! ### Atomic callbacks -/

/-- Something that happens to a connection. -/
inductive Happening
  | accepted (sa : SockaddrIn)
  | received (chunk : List Byte) (now : LocalTime)
  | closed (events : What)

/-- A call of `bufferevent_write`: the connection whose callback made it, the connection at
the address it was made on, and the bytes passed. -/
structure Write where
  source : ℕ
  target : Option ℕ
  data : List Byte

/-- The server between two callbacks: which connection's bufferevent is allocated at which
address, `map_Client`, and the records of what has happened. -/
structure Service where
  allocated : Addr → Option ℕ
  mapClient : Finmap fun _ : Addr => SockaddrIn
  nextConn : ℕ
  writes : List Write
  history : List (ℕ × Happening)

/-- A callback that libevent runs, with what it finds: the address of the new bufferevent,
the chunk in the input buffer, the clock, the memory behind `readbuf`, and the address that
dereferencing `map_Client.end()` would yield. -/
inductive Callback
  | listenerCb (p : Addr) (sa : SockaddrIn)
  | readcb (p : Addr) (chunk : List Byte) (now : LocalTime) (past : List Byte) (stray : Addr)
  | writecb (p : Addr)
  | eventcb (p : Addr) (events : What)

namespace Service

/-- Nothing has happened. -/
def init : Service := ⟨fun _ => none, ∅, 0, [], []⟩

/-- `iocp_listener_cb`. -/
def listenerCb (σ : Service) (p : Addr) (sa : SockaddrIn) : Service where
  allocated := Function.update σ.allocated p (some σ.nextConn)
  mapClient := σ.mapClient.insert p sa
  nextConn := σ.nextConn + 1
  writes := σ.writes ++ [⟨σ.nextConn, some σ.nextConn, message⟩]
  history := σ.history ++ [(σ.nextConn, .accepted sa)]

/-- `iocp_conn_readcb` on a non-empty input buffer. -/
def readcb (σ : Service) (c : ℕ) (p : Addr) (chunk : List Byte) (now : LocalTime)
    (past : List Byte) (stray : Addr) : Service :=
  let itFind := if p ∈ σ.mapClient then some p else none
  let entry := itFind.bind fun k => σ.mapClient.lookup k
  { σ with
    writes := σ.writes ++
      [⟨c, σ.allocated (itFind.getD stray), readcbReply entry now past chunk⟩]
    history := σ.history ++ [(c, .received chunk now)] }

/-- `iocp_conn_eventcb`. -/
def eventcb (σ : Service) (c : ℕ) (p : Addr) (events : What) : Service :=
  { σ with
    allocated := Function.update σ.allocated p none
    mapClient := σ.mapClient.erase p
    history := σ.history ++ [(c, .closed events)] }

/-- One callback. A new bufferevent gets an address that is not allocated; the others run on
an allocated one. `iocp_conn_writecb` and an empty input buffer only print. -/
def step (σ : Service) : Callback → Option Service
  | .listenerCb p sa => if σ.allocated p = none then some (σ.listenerCb p sa) else none
  | .readcb p chunk now past stray => (σ.allocated p).map fun c =>
      if chunk = [] then σ else σ.readcb c p chunk now past stray
  | .writecb p => (σ.allocated p).map fun _ => σ
  | .eventcb p events => (σ.allocated p).map fun c => σ.eventcb c p events

/-- What has happened to a connection. -/
def historyOf (σ : Service) (c : ℕ) : List Happening :=
  σ.history.filterMap fun x => if x.1 = c then some x.2 else none

/-- The byte strings passed to `bufferevent_write` for a connection. -/
def writesTo (σ : Service) (c : ℕ) : List (List Byte) :=
  σ.writes.filterMap fun w => if w.target = some c then some w.data else none

end Service

/-- Every chunk read has between 1 and 16383 bytes. -/
def ChunkFits (_ : Service) : Callback → Prop
  | .readcb _ chunk _ _ _ => 1 ≤ chunk.length ∧ chunk.length < maxToReadEver
  | _ => True

/-! ### Writes as a function of the history -/

/-- The peer address a connection is registered with after its history. -/
def peerAfter : Option SockaddrIn → List Happening → Option SockaddrIn
  | entry, [] => entry
  | _, .accepted sa :: h => peerAfter (some sa) h
  | entry, .received _ _ :: h => peerAfter entry h
  | entry, .closed _ :: h => peerAfter entry h

/-- What a connection with a given history is sent: the greeting, and for every chunk the
reply to its bytes before the first NUL. -/
def outputs : Option SockaddrIn → List Happening → List (List Byte)
  | _, [] => []
  | _, .accepted sa :: h => message :: outputs (some sa) h
  | entry, .received chunk now :: h => reply entry now (upToFirst 0 chunk) :: outputs entry h
  | entry, .closed _ :: h => outputs entry h

theorem peerAfter_append (entry : Option SockaddrIn) (h₁ h₂ : List Happening) :
    peerAfter entry (h₁ ++ h₂) = peerAfter (peerAfter entry h₁) h₂ := by
  induction h₁ generalizing entry with
  | nil => rfl
  | cons x h₁ ih =>
      cases x with
      | accepted sa => exact ih (some sa)
      | received chunk now => exact ih entry
      | closed events => exact ih entry

theorem outputs_append (entry : Option SockaddrIn) (h₁ h₂ : List Happening) :
    outputs entry (h₁ ++ h₂) = outputs entry h₁ ++ outputs (peerAfter entry h₁) h₂ := by
  induction h₁ generalizing entry with
  | nil => rfl
  | cons x h₁ ih =>
      cases x with
      | accepted sa => exact congrArg (message :: ·) (ih (some sa))
      | received chunk now => exact congrArg (reply entry now _ :: ·) (ih entry)
      | closed events => exact ih entry

/-! ### The invariant of a run of callbacks -/

/-- The connections that are allocated have been accepted and are registered under the peer
address of their history; what was written to a connection is what its history says; and
every callback wrote to its own connection. -/
structure Served (σ : Service) : Prop where
  fresh : ∀ c, σ.nextConn ≤ c → σ.historyOf c = []
  known : ∀ p c, σ.allocated p = some c → c < σ.nextConn
  entry : ∀ p c, σ.allocated p = some c → ∃ sa, σ.mapClient.lookup p = some sa ∧
    peerAfter none (σ.historyOf c) = some sa
  output : ∀ c, σ.writesTo c = outputs none (σ.historyOf c)
  own : ∀ w ∈ σ.writes, w.target = some w.source

namespace Service

variable {σ : Service} {p : Addr} {c : ℕ}

/-- The history of a connection after one more happening. -/
theorem historyOf_append {σ' : Service} {x : Happening}
    (h : σ'.history = σ.history ++ [(c, x)]) (c' : ℕ) :
    σ'.historyOf c' = σ.historyOf c' ++ if c = c' then [x] else [] := by
  rw [historyOf, h, List.filterMap_append, ← historyOf]
  by_cases hc : c = c'
  · simp [hc]
  · simp [hc]

/-- The writes to a connection after one more write. -/
theorem writesTo_append {σ' : Service} {w : Write} (h : σ'.writes = σ.writes ++ [w])
    (c' : ℕ) : σ'.writesTo c' = σ.writesTo c' ++ if w.target = some c' then [w.data] else [] := by
  rw [writesTo, h, List.filterMap_append, ← writesTo]
  by_cases hw : w.target = some c'
  · simp [hw]
  · simp [hw]

/-- One more write by the connection it goes to. -/
theorem own_append {σ' : Service} {data : List Byte} (h : Served σ)
    (hw : σ'.writes = σ.writes ++ [⟨c, some c, data⟩]) :
    ∀ w ∈ σ'.writes, w.target = some w.source := by
  intro w hmem
  rw [hw] at hmem
  rcases List.mem_append.mp hmem with hmem | hmem
  · exact h.own w hmem
  · rw [List.mem_singleton.mp hmem]

end Service

section Step

variable {σ : Service} {p : Addr} {c : ℕ}

/-- The accept callback keeps the invariant. -/
theorem Served.listenerCb (h : Served σ) (sa : SockaddrIn) :
    Served (σ.listenerCb p sa) := by
  have hhist : ∀ c', (σ.listenerCb p sa).historyOf c'
      = σ.historyOf c' ++ if σ.nextConn = c' then [.accepted sa] else [] :=
    Service.historyOf_append rfl
  have hw : (σ.listenerCb p sa).writes
      = σ.writes ++ [⟨σ.nextConn, some σ.nextConn, message⟩] := rfl
  refine ⟨fun c hc => ?_, fun q c hq => ?_, fun q c hq => ?_, fun c => ?_,
    Service.own_append h hw⟩
  · have hlt : σ.nextConn < c := hc
    rw [hhist, h.fresh c hlt.le, if_neg hlt.ne, List.append_nil]
  · by_cases hqp : q = p
    · subst hqp
      simp only [Service.listenerCb, Function.update_self, Option.some.injEq] at hq
      exact hq ▸ Nat.lt_succ_self _
    · simp only [Service.listenerCb, Function.update_of_ne hqp] at hq
      exact Nat.lt_succ_of_lt (h.known q c hq)
  · by_cases hqp : q = p
    · subst hqp
      simp only [Service.listenerCb, Function.update_self, Option.some.injEq] at hq
      subst hq
      refine ⟨sa, Finmap.lookup_insert _, ?_⟩
      rw [hhist, h.fresh _ (le_refl _), if_pos rfl]
      rfl
    · simp only [Service.listenerCb, Function.update_of_ne hqp] at hq
      obtain ⟨sa', hlookup, hpeer⟩ := h.entry q c hq
      refine ⟨sa', (Finmap.lookup_insert_of_ne _ hqp).trans hlookup, ?_⟩
      rw [hhist, if_neg (h.known q c hq).ne', List.append_nil, hpeer]
  · rw [Service.writesTo_append hw, hhist, outputs_append, h.output c]
    by_cases hc : σ.nextConn = c
    · rw [if_pos (congrArg some hc), if_pos hc]
      rfl
    · rw [if_neg fun hs => hc (Option.some.inj hs), if_neg hc]
      rfl

/-- The read callback keeps the invariant: it finds the entry of its own connection. -/
theorem Served.readcb (h : Served σ) (hp : σ.allocated p = some c) {chunk : List Byte}
    (hlen : chunk.length < maxToReadEver) (now : LocalTime) (past : List Byte)
    (stray : Addr) : Served (σ.readcb c p chunk now past stray) := by
  obtain ⟨sa, hlookup, hpeer⟩ := h.entry p c hp
  have hmem : p ∈ σ.mapClient := Finmap.lookup_isSome.mp (by rw [hlookup]; rfl)
  have hdata : readcbReply (some sa) now past chunk = reply (some sa) now (upToFirst 0 chunk) := by
    rw [readcbReply, appendCString_readbuf hlen.le (Or.inl hlen)]
  have hw : (σ.readcb c p chunk now past stray).writes
      = σ.writes ++ [⟨c, some c, reply (some sa) now (upToFirst 0 chunk)⟩] := by
    simp only [Service.readcb, if_pos hmem, Option.bind_some, Option.getD_some, hlookup, hp,
      hdata]
  have hhist : ∀ c', (σ.readcb c p chunk now past stray).historyOf c'
      = σ.historyOf c' ++ if c = c' then [.received chunk now] else [] :=
    Service.historyOf_append rfl
  have hpeer' : ∀ c', peerAfter none ((σ.readcb c p chunk now past stray).historyOf c')
      = peerAfter none (σ.historyOf c') := by
    intro c'
    rw [hhist, peerAfter_append]
    split <;> rfl
  refine ⟨fun c' hc' => ?_, h.known, fun q c' hq => ?_, fun c' => ?_,
    Service.own_append h hw⟩
  · have hlt : c < c' := Nat.lt_of_lt_of_le (h.known p c hp) hc'
    rw [hhist, h.fresh c' hc', if_neg hlt.ne]
    rfl
  · rw [hpeer']
    exact h.entry q c' hq
  · rw [Service.writesTo_append hw, hhist, outputs_append, h.output c']
    by_cases hc : c = c'
    · subst hc
      rw [if_pos rfl, if_pos rfl, hpeer]
      rfl
    · rw [if_neg fun hs => hc (Option.some.inj hs), if_neg hc]
      rfl

/-- The event callback keeps the invariant. -/
theorem Served.eventcb (h : Served σ) (hp : σ.allocated p = some c) (events : What) :
    Served (σ.eventcb c p events) := by
  have hhist : ∀ c', (σ.eventcb c p events).historyOf c'
      = σ.historyOf c' ++ if c = c' then [.closed events] else [] :=
    Service.historyOf_append rfl
  have halloc : ∀ q c', (σ.eventcb c p events).allocated q = some c' →
      q ≠ p ∧ σ.allocated q = some c' := by
    intro q c' hq
    have hqp : q ≠ p := by
      rintro rfl
      simp [Service.eventcb] at hq
    simp only [Service.eventcb, Function.update_of_ne hqp] at hq
    exact ⟨hqp, hq⟩
  refine ⟨fun c' hc' => ?_, fun q c' hq => h.known q c' (halloc q c' hq).2,
    fun q c' hq => ?_, fun c' => ?_, h.own⟩
  · have hlt : c < c' := Nat.lt_of_lt_of_le (h.known p c hp) hc'
    rw [hhist, h.fresh c' hc', if_neg hlt.ne]
    rfl
  · obtain ⟨hqp, hq⟩ := halloc q c' hq
    obtain ⟨sa, hlookup, hpeer⟩ := h.entry q c' hq
    refine ⟨sa, (Finmap.lookup_erase_ne hqp).trans hlookup, ?_⟩
    rw [hhist, peerAfter_append, hpeer]
    split <;> rfl
  · rw [hhist, outputs_append]
    change σ.writesTo c' = _
    rw [h.output c']
    split
    · exact (List.append_nil _).symm
    · exact (List.append_nil _).symm

/-- Every callback keeps the invariant. -/
theorem Served.step {σ' : Service} {cb : Callback} (h : Served σ) (hfits : ChunkFits σ cb)
    (hstep : σ.step cb = some σ') : Served σ' := by
  cases cb with
  | listenerCb p sa =>
      simp only [Service.step] at hstep
      split at hstep
      · obtain rfl := Option.some.inj hstep
        exact h.listenerCb sa
      · simp at hstep
  | readcb p chunk now past stray =>
      obtain ⟨c, hp, rfl⟩ := Option.map_eq_some_iff.mp hstep
      split
      · exact h
      · exact h.readcb hp hfits.2 now past stray
  | writecb p =>
      obtain ⟨c, -, rfl⟩ := Option.map_eq_some_iff.mp hstep
      exact h
  | eventcb p events =>
      obtain ⟨c, hp, rfl⟩ := Option.map_eq_some_iff.mp hstep
      exact h.eventcb hp events

end Step

/-- **The writes to a connection are a function of its own history**, in every run of
callbacks. -/
theorem served_of_reach {σ : Service} (h : Reach Service.step ChunkFits Service.init σ) :
    Served σ := by
  refine h.invariant Served ⟨fun c _ => rfl, fun p c hp => ?_, fun p c hp => ?_,
    fun c => rfl, fun w hw => ?_⟩ fun _ _ _ hI hC hs => hI.step hC hs
  · simp [Service.init] at hp
  · simp [Service.init] at hp
  · simp [Service.init] at hw

/-- **Clients do not influence each other's replies.** Two runs in which a connection has the
same history, that is the same peer address, the same chunks at the same clock readings and
the same final event, write the same byte strings to it; and no callback of a connection
writes to another one. -/
theorem replies_isolated {σ₁ σ₂ : Service} {c₁ c₂ : ℕ}
    (h₁ : Reach Service.step ChunkFits Service.init σ₁)
    (h₂ : Reach Service.step ChunkFits Service.init σ₂)
    (hsame : σ₁.historyOf c₁ = σ₂.historyOf c₂) :
    σ₁.writesTo c₁ = σ₂.writesTo c₂ ∧
      (∀ w ∈ σ₁.writes, w.source = c₁ → w.target = some c₁) ∧
      (∀ w ∈ σ₂.writes, w.source = c₂ → w.target = some c₂) := by
  have hs₁ := served_of_reach h₁
  have hs₂ := served_of_reach h₂
  refine ⟨?_, fun w hw hc => ?_, fun w hw hc => ?_⟩
  · rw [hs₁.output, hs₂.output, hsame]
  · rw [← hc]
    exact hs₁.own w hw
  · rw [← hc]
    exact hs₂.own w hw

/-- One connection alone at address 7. -/
def aloneRun : List Callback :=
  [.listenerCb 7 ⟨80, 1⟩, .readcb 7 [97, 0] someTime [] 0, .eventcb 7 .eof]

/-- The same connection at an address that another one has had, next to a third one. -/
def crowdedRun : List Callback :=
  [.listenerCb 7 ⟨90, 2⟩, .readcb 7 [98] someTime [] 0, .eventcb 7 .error,
    .listenerCb 9 ⟨91, 3⟩, .listenerCb 7 ⟨80, 1⟩, .readcb 9 [99] someTime [] 0,
    .readcb 7 [97, 0] someTime [1] 9, .writecb 9, .eventcb 7 .eof]

/-- The connection that is alone in one run and the third one in the other is sent the same
in both. -/
theorem replies_isolated_runs :
    ∃ σ₁ σ₂, run Service.step Service.init aloneRun = some σ₁ ∧
      run Service.step Service.init crowdedRun = some σ₂ ∧
      (σ₁.historyOf 0).length = 3 ∧ σ₁.writesTo 0 = σ₂.writesTo 2 := by
  have hfits₁ : ∀ cb ∈ aloneRun, ∀ σ, ChunkFits σ cb := by
    intro cb hcb σ
    simp only [aloneRun, List.mem_cons, List.not_mem_nil, or_false] at hcb
    rcases hcb with rfl | rfl | rfl <;> simp [ChunkFits, maxToReadEver]
  have hfits₂ : ∀ cb ∈ crowdedRun, ∀ σ, ChunkFits σ cb := by
    intro cb hcb σ
    simp only [crowdedRun, List.mem_cons, List.not_mem_nil, or_false] at hcb
    rcases hcb with rfl | rfl | rfl | rfl | rfl | rfl | rfl | rfl | rfl <;>
      simp [ChunkFits, maxToReadEver]
  refine ⟨_, _, rfl, rfl, rfl, ?_⟩
  exact (replies_isolated (reach_of_run (along_of_forall hfits₁ _) rfl)
    (reach_of_run (along_of_forall hfits₂ _) rfl) rfl).1

end IocpEcho
