import IocpEcho.Callbacks
import IocpEcho.ReadSide
import IocpEcho.WriteSide

/-!
# The Overlapped Bufferevent and its Chains

The program of `IocpEcho.Callbacks` treats the two buffers of a bufferevent as lists of bytes.
This module puts `bufferevent_async.c` on top of the evbuffers as they are, with their chains,
their pinned memory and the kernel reading and writing in it, and shows that the lists are a
faithful picture: every step of the bufferevent with its chains succeeds and is a step of the
bufferevent with its lists, and what the kernel does in between is not seen.

The functions of `bufferevent_async.c` run under the lock of the bufferevent, so each is one
step; only the kernel works without it. References, the lock and the callbacks are not part
of this machine; they are those of `IocpEcho.Callbacks`.

## Main results

* `BuffereventAsync.inv_of_reach`: the invariant of every run.
* `BuffereventAsync.inv_shows`: every step is a step of the bufferevent with lists.
-/

namespace IocpEcho

open Regions Interleaving

/-! ### The machine -/

/-- A `bufferevent_async` with its two evbuffers. The last six fields are not memory of the
program: what the kernel has put into the vectors of the read under way, how much of the write
under way it has sent, and all bytes that have arrived, been taken, appended and sent. -/
structure BuffereventAsync where
  input : EvbufferOverlapped
  output : EvbufferOverlapped
  ok : Bool
  enabledRead : Bool
  enabledWrite : Bool
  readInProgress : ℕ
  writeInProgress : ℕ
  received : List Byte
  sent : ℕ
  arrived : List Byte
  taken : List Byte
  appended : List Byte
  wire : List Byte

/-- What can happen to a bufferevent: the kernel delivers or sends a byte, or one of the
functions of libevent runs. -/
inductive AsyncLabel
  | arrive (b : Byte)
  | send
  | enable (read write : Bool)
  | cancelAll
  | considerReading (malloc wsaRecv : Bool)
  | considerWriting (wsaSend : Bool)
  | readComplete (ok : Bool)
  | writeComplete (ok : Bool)
  | read (size : ℕ)
  | write (malloc : ℕ → Bool) (data : List Byte)

namespace BuffereventAsync

/-- `bufferevent_async_new` on a connected socket. -/
def new (mem mem' : ℕ → ℕ → Byte) : BuffereventAsync where
  input := .new mem
  output := .new mem'
  ok := true
  enabledRead := false
  enabledWrite := true
  readInProgress := 0
  writeInProgress := 0
  received := []
  sent := 0
  arrived := []
  taken := []
  appended := []
  wire := []

/-- The reading half. -/
def readSide (s : BuffereventAsync) : ReadSide :=
  ⟨s.input, s.ok, s.received, s.arrived, s.taken⟩

/-- The writing half. -/
def writeSide (s : BuffereventAsync) : WriteSide :=
  ⟨s.output, s.ok, s.sent, s.wire, s.appended⟩

/-- Replace the buffer of the reading half and its histories. -/
def setReadSide (s : BuffereventAsync) (r : ReadSide) : BuffereventAsync :=
  { s with input := r.eo, received := r.received, arrived := r.arrived, taken := r.taken }

/-- Replace the buffer of the writing half and its histories. -/
def setWriteSide (s : BuffereventAsync) (w : WriteSide) : BuffereventAsync :=
  { s with output := w.eo, sent := w.sent, wire := w.wire, appended := w.appended }

/-- `bev_async_consider_reading`; `at_most` is 16384 without a high watermark. -/
def considerReading (P : Platform) (malloc wsaRecv : Bool) (s : BuffereventAsync) :
    Option BuffereventAsync :=
  if s.readInProgress ≠ 0 then some s
  else if !s.ok || !s.enabledRead then some s
  else
    (s.input.evbufferLaunchRead P malloc wsaRecv maxToReadEver).map fun (r, eo) =>
      if r = 0 then { s with input := eo, readInProgress := maxToReadEver }
      else { s with input := eo, ok := false }

/-- `bev_async_consider_writing`; `MAX_TO_WRITE_EVER` is 16384 too. -/
def considerWriting (wsaSend : Bool) (s : BuffereventAsync) : Option BuffereventAsync :=
  if s.writeInProgress ≠ 0 then some s
  else if !s.ok || !s.enabledWrite || s.output.buffer.totalLen = 0 then some s
  else
    let atMost := min s.output.buffer.totalLen maxToReadEver
    (s.output.evbufferLaunchWrite wsaSend atMost).map fun (r, eo) =>
      if r = 0 then { s with output := eo, writeInProgress := atMost }
      else { s with output := eo, ok := false }

/-- `read_complete`, up to its callbacks. -/
def readComplete (ok : Bool) (s : BuffereventAsync) : Option BuffereventAsync :=
  if s.readInProgress = 0 then none
  else
    (s.input.evbufferCommitRead s.received.length).map fun eo =>
      { s with
        input := eo
        readInProgress := 0
        ok := s.ok && ok && s.received ≠ []
        received := [] }

/-- `write_complete`, up to its callbacks. -/
def writeComplete (ok : Bool) (s : BuffereventAsync) : Option BuffereventAsync :=
  if s.writeInProgress = 0 then none
  else
    (s.output.evbufferCommitWrite s.sent).map fun eo =>
      { s with
        output := eo
        writeInProgress := 0
        ok := s.ok && ok && s.sent ≠ 0
        sent := 0 }

/-- One step of a bufferevent. -/
def step (P : Platform) (s : BuffereventAsync) : AsyncLabel → Option BuffereventAsync
  | .arrive b => (s.readSide.arrive b).map s.setReadSide
  | .send => s.writeSide.send.map s.setWriteSide
  | .enable read write =>
      some { s with
        enabledRead := s.enabledRead || read
        enabledWrite := s.enabledWrite || write }
  | .cancelAll => some { s with ok := false }
  | .considerReading malloc wsaRecv => s.considerReading P malloc wsaRecv
  | .considerWriting wsaSend => s.considerWriting wsaSend
  | .readComplete ok => s.readComplete ok
  | .writeComplete ok => s.writeComplete ok
  | .read size => (s.readSide.read size).map s.setReadSide
  | .write malloc data => (s.writeSide.write P malloc data).map s.setWriteSide

/-- The kernel works on an operation, and completes it, only after it has been launched and
before it has completed, and within the vectors it has been given. -/
def Enabled (s : BuffereventAsync) : AsyncLabel → Prop
  | .arrive _ => s.readInProgress ≠ 0 ∧ s.received.length < size s.input.buffers
  | .send => s.writeInProgress ≠ 0 ∧ s.sent < size s.output.buffers
  | .readComplete _ => s.readInProgress ≠ 0
  | .writeComplete _ => s.writeInProgress ≠ 0
  | _ => True

end BuffereventAsync

/-! ### The bufferevent with lists -/

/-- What can happen to a bufferevent with lists. -/
inductive BevLabel
  | enable (read write : Bool)
  | cancelAll
  | considerReading (launched : Bool)
  | considerWriting (launched : Bool)
  | readComplete (data : List Byte) (ok : Bool)
  | writeComplete (nbytes : ℕ) (ok : Bool)
  | read (size : ℕ)
  | write (data : List Byte)

/-- One step of a bufferevent with lists: the functions of `IocpEcho.Callbacks`. -/
def Bufferevent.step (t : Tid) (p : Addr) (b : Bufferevent) : BevLabel → Option Bufferevent
  | .enable read write =>
      some { b with
        enabledRead := b.enabledRead || read
        enabledWrite := b.enabledWrite || write }
  | .cancelAll => some { b with ok := false }
  | .considerReading launched => (bevAsyncConsiderReading launched p b).1
  | .considerWriting launched => (bevAsyncConsiderWriting launched p b).1
  | .readComplete data ok =>
      if b.readInProgress ≠ 0 ∧ data.length ≤ b.readInProgress then
        some (IocpEcho.readComplete t p data ok b).1
      else none
  | .writeComplete nbytes ok =>
      if b.writeInProgress ≠ 0 ∧ nbytes ≤ b.writeInProgress then
        some (IocpEcho.writeComplete t p nbytes ok b).1
      else none
  | .read size => some { b with input := (buffereventRead b.input size).2 }
  | .write data => some (b.append data)

/-- A bufferevent with lists is a picture of one with chains. -/
structure Represents (s : BuffereventAsync) (b : Bufferevent) : Prop where
  input : b.input = s.input.buffer.contents
  output : b.output = s.output.buffer.contents
  ok : b.ok = s.ok
  enabledRead : b.enabledRead = s.enabledRead
  enabledWrite : b.enabledWrite = s.enabledWrite
  readInProgress : b.readInProgress = s.readInProgress
  writeInProgress : b.writeInProgress = s.writeInProgress

/-- As which step of the bufferevent with lists a step from `s` to `s'` appears. What the
kernel does is not seen, nor is a `bufferevent_write` that fails. -/
inductive Shows (s s' : BuffereventAsync) : AsyncLabel → Option BevLabel → Prop
  | arrive (b : Byte) : Shows s s' (.arrive b) none
  | send : Shows s s' .send none
  | enable (read write : Bool) : Shows s s' (.enable read write) (some (.enable read write))
  | cancelAll : Shows s s' .cancelAll (some .cancelAll)
  | considerReading (malloc wsaRecv : Bool) :
      Shows s s' (.considerReading malloc wsaRecv) (some (.considerReading s'.ok))
  | considerWriting (wsaSend : Bool) :
      Shows s s' (.considerWriting wsaSend) (some (.considerWriting s'.ok))
  | readComplete (ok : Bool) :
      Shows s s' (.readComplete ok) (some (.readComplete s.received ok))
  | writeComplete (ok : Bool) : Shows s s' (.writeComplete ok) (some (.writeComplete s.sent ok))
  | read (size : ℕ) :
      s'.taken = s.taken ++ (buffereventRead s.input.buffer.contents size).1 →
      Shows s s' (.read size) (some (.read size))
  | write (malloc : ℕ → Bool) (data : List Byte) :
      s'.appended = s.appended ++ data → Shows s s' (.write malloc data) (some (.write data))
  | writeFailed (malloc : ℕ → Bool) (data : List Byte) :
      s' = s → Shows s s' (.write malloc data) none

/-! ### The invariant -/

/-- Both halves are as they should be, and `read_in_progress` and `write_in_progress` say
what the evbuffers say. -/
structure BuffereventAsync.Inv (s : BuffereventAsync) : Prop where
  reading : s.readSide.Inv maxToReadEver
  writing : s.writeSide.Inv
  readProgress : (s.readInProgress = 0 ∧ s.input.readInProgress = false) ∨
    (s.readInProgress = maxToReadEver ∧ s.input.readInProgress = true)
  writeProgress : (s.writeInProgress = 0 ∧ s.output.writeInProgress = false) ∨
    (s.writeInProgress ≠ 0 ∧ s.output.writeInProgress = true ∧
      size s.output.buffers ≤ s.writeInProgress)

/-- A reading half that may no longer launch reads. -/
theorem ReadSide.Inv.mono {m : ℕ} {s : ReadSide} (h : s.Inv m) {ok : Bool}
    (hok : ok = true → s.ok = true) : ReadSide.Inv m { s with ok := ok } := by
  refine ⟨h.readsOnly, h.account, ?_⟩
  rcases h.phase with ⟨hidle, hnil, hready⟩ | hreading
  · exact Or.inl ⟨hidle, hnil, fun hc => hready (hok hc)⟩
  · exact Or.inr hreading

/-- Whether an output may launch writes is not part of its invariant. -/
theorem WriteSide.Inv.setOk {s : WriteSide} (h : s.Inv) (ok : Bool) :
    WriteSide.Inv { s with ok := ok } :=
  ⟨h.writesOnly, h.account, h.phase⟩

namespace BuffereventAsync

theorem maxToReadEver_pos : 0 < maxToReadEver := by
  rw [maxToReadEver]
  omega

/-- The invariant holds at the start. -/
theorem inv_new (mem mem' : ℕ → ℕ → Byte) : (new mem mem').Inv :=
  ⟨ReadSide.inv_new maxToReadEver_pos mem, WriteSide.inv_new mem', Or.inl ⟨rfl, rfl⟩,
    Or.inl ⟨rfl, rfl⟩⟩

/-- A new bufferevent is represented by a new one. -/
theorem represents_new (mem mem' : ℕ → ℕ → Byte) (conn : ℕ) :
    Represents (new mem mem') (Bufferevent.new conn) :=
  ⟨rfl, rfl, rfl, rfl, rfl, rfl, rfl⟩

/-! ### What the kernel does -/

theorem Inv.readInProgress_eq {s : BuffereventAsync} (h : s.Inv) (hne : s.readInProgress ≠ 0) :
    s.readInProgress = maxToReadEver ∧ s.input.readInProgress = true := by
  rcases h.readProgress with ⟨hzero, -⟩ | hprogress
  · exact absurd hzero hne
  · exact hprogress

theorem Inv.input_idle {s : BuffereventAsync} (h : s.Inv) (hzero : s.readInProgress = 0) :
    s.input.readInProgress = false := by
  rcases h.readProgress with ⟨-, hidle⟩ | ⟨hmax, -⟩
  · exact hidle
  · have := maxToReadEver_pos
    omega

theorem Inv.writeInProgress_eq {s : BuffereventAsync} (h : s.Inv) (hne : s.writeInProgress ≠ 0) :
    s.output.writeInProgress = true ∧ size s.output.buffers ≤ s.writeInProgress := by
  rcases h.writeProgress with ⟨hzero, -⟩ | ⟨-, hprogress⟩
  · exact absurd hzero hne
  · exact hprogress

theorem Inv.output_idle {s : BuffereventAsync} (h : s.Inv) (hzero : s.writeInProgress = 0) :
    s.output.writeInProgress = false := by
  rcases h.writeProgress with ⟨-, hidle⟩ | ⟨hne, -⟩
  · exact hidle
  · exact absurd hzero hne

/-- A step of the reading half that leaves the rest alone. -/
theorem Inv.setReadSide {s : BuffereventAsync} (h : s.Inv) {r : ReadSide}
    (hr : r.Inv maxToReadEver) (hok : r.ok = s.ok)
    (hprogress : r.eo.readInProgress = s.input.readInProgress) : (s.setReadSide r).Inv := by
  refine ⟨?_, h.writing, ?_, h.writeProgress⟩
  · have : (s.setReadSide r).readSide = { r with ok := s.ok } := rfl
    rw [this, ← hok]
    exact hr
  · change (s.readInProgress = 0 ∧ r.eo.readInProgress = false) ∨
      (s.readInProgress = maxToReadEver ∧ r.eo.readInProgress = true)
    rw [hprogress]
    exact h.readProgress

/-- A step of the writing half that leaves the rest alone. -/
theorem Inv.setWriteSide {s : BuffereventAsync} (h : s.Inv) {w : WriteSide} (hw : w.Inv)
    (hprogress : w.eo.writeInProgress = s.output.writeInProgress)
    (hbuffers : w.eo.buffers = s.output.buffers) : (s.setWriteSide w).Inv := by
  refine ⟨h.reading, hw.setOk s.ok, h.readProgress, ?_⟩
  change (s.writeInProgress = 0 ∧ w.eo.writeInProgress = false) ∨
    (s.writeInProgress ≠ 0 ∧ w.eo.writeInProgress = true ∧ size w.eo.buffers ≤ s.writeInProgress)
  rw [hprogress, hbuffers]
  exact h.writeProgress

/-! ### Launching and completing -/

/-- `bev_async_consider_reading` with chains is `bev_async_consider_reading` with lists. -/
theorem Inv.considerReading {P : Platform} {s : BuffereventAsync} {b : Bufferevent} (h : s.Inv)
    (hrep : Represents s b) (p : Addr) (malloc wsaRecv : Bool) :
    ∃ s' b', s.considerReading P malloc wsaRecv = some s' ∧ s'.Inv ∧
      (bevAsyncConsiderReading s'.ok p b).1 = some b' ∧ Represents s' b' := by
  by_cases hwants : b.wantsRead = true
  · obtain ⟨⟨hzero, hok⟩, henabled⟩ : (b.readInProgress = 0 ∧ b.ok = true) ∧
        b.enabledRead = true := by
      simpa [Bufferevent.wantsRead] using hwants
    rw [hrep.readInProgress] at hzero
    rw [hrep.ok] at hok
    rw [hrep.enabledRead] at henabled
    have hgo : ¬ (!s.ok || !s.enabledRead) = true := by
      rw [hok, henabled]
      decide
    obtain ⟨r, eo', hlaunch, hinv, hcontents, hcases⟩ :=
      @ReadSide.Inv.launch P _ _ h.reading malloc wsaRecv (h.input_idle hzero) hok
    have hlaunch' : s.input.evbufferLaunchRead P malloc wsaRecv maxToReadEver = some (r, eo') :=
      hlaunch
    rw [BuffereventAsync.considerReading, if_neg (not_not_intro hzero), if_neg hgo, hlaunch',
      Option.map_some]
    rcases hcases with ⟨rfl, hprogress⟩ | ⟨rfl, hidle⟩
    · refine ⟨_, b.launchRead, rfl, ⟨?_, h.writing, Or.inr ⟨rfl, hprogress⟩, h.writeProgress⟩, ?_,
        ⟨hrep.input.trans hcontents.symm, hrep.output, hrep.ok, hrep.enabledRead,
          hrep.enabledWrite, rfl, hrep.writeInProgress⟩⟩
      · exact hinv.mono fun _ => rfl
      · change (bevAsyncConsiderReading s.ok p b).1 = some b.launchRead
        rw [bevAsyncConsiderReading, if_pos hwants, if_pos hok]
    · refine ⟨{ s with input := eo', ok := false }, { b with refcnt := b.refcnt + 1, ok := false },
        rfl, ⟨hinv, h.writing.setOk false, Or.inl ⟨hzero, hidle⟩, h.writeProgress⟩, ?_,
        ⟨hrep.input.trans hcontents.symm, hrep.output, rfl, hrep.enabledRead, hrep.enabledWrite,
          hrep.readInProgress, hrep.writeInProgress⟩⟩
      rw [bevAsyncConsiderReading, if_pos hwants]
      rfl
  · refine ⟨s, b, ?_, h, ?_, hrep⟩
    · rw [BuffereventAsync.considerReading]
      by_cases hzero : s.readInProgress = 0
      · rw [if_neg (not_not_intro hzero), if_pos]
        by_contra hgo
        refine hwants ?_
        rw [Bufferevent.wantsRead, hrep.readInProgress, hrep.ok, hrep.enabledRead, hzero]
        simpa using hgo
      · rw [if_pos hzero]
    · rw [bevAsyncConsiderReading, if_neg hwants]

/-- `bev_async_consider_writing` with chains is `bev_async_consider_writing` with lists. -/
theorem Inv.considerWriting {s : BuffereventAsync} {b : Bufferevent} (h : s.Inv)
    (hrep : Represents s b) (p : Addr) (wsaSend : Bool) :
    ∃ s' b', s.considerWriting wsaSend = some s' ∧ s'.Inv ∧
      (bevAsyncConsiderWriting s'.ok p b).1 = some b' ∧ Represents s' b' := by
  have hwf : s.output.buffer.Wf := h.writing.writesOnly.wf
  have hnil : b.output = [] ↔ s.output.buffer.totalLen = 0 := by
    rw [hrep.output]
    exact hwf.contents_eq_nil_iff
  by_cases hwants : b.wantsWrite = true
  · obtain ⟨⟨⟨hzero, hok⟩, henabled⟩, hne⟩ : ((b.writeInProgress = 0 ∧ b.ok = true) ∧
        b.enabledWrite = true) ∧ ¬ b.output = [] := by
      simpa [Bufferevent.wantsWrite] using hwants
    rw [hrep.writeInProgress] at hzero
    rw [hrep.ok] at hok
    rw [hrep.enabledWrite] at henabled
    rw [hnil] at hne
    have hgo : ¬ (!s.ok || !s.enabledWrite || decide (s.output.buffer.totalLen = 0)) = true := by
      rw [hok, henabled]
      simpa using hne
    have hpos := Nat.pos_of_ne_zero hne
    have hamount_pos : 0 < min s.output.buffer.totalLen maxToReadEver := by
      have := maxToReadEver_pos
      omega
    obtain ⟨r, eo', hlaunch, hinv, hcontents, hcases⟩ := h.writing.launch wsaSend
      (h.output_idle hzero) hpos hamount_pos (Nat.min_le_left _ maxToReadEver)
    have hlaunch' : s.output.evbufferLaunchWrite wsaSend
        ((min s.output.buffer.totalLen maxToReadEver : ℕ) : ℤ) = some (r, eo') := hlaunch
    rw [BuffereventAsync.considerWriting, if_neg (not_not_intro hzero), if_neg hgo]
    dsimp only
    rw [hlaunch', Option.map_some]
    have hamount : min b.output.length maxToReadEver =
        min s.output.buffer.totalLen maxToReadEver := by
      rw [hrep.output, hwf.length_contents]
    rcases hcases with ⟨rfl, hprogress, hsize⟩ | ⟨rfl, hidle⟩
    · refine ⟨_, b.launchWrite, rfl, ⟨h.reading, hinv.setOk s.ok, h.readProgress,
        Or.inr ⟨Nat.ne_of_gt hamount_pos, hprogress, hsize⟩⟩, ?_,
        ⟨hrep.input, hrep.output.trans hcontents.symm, hrep.ok, hrep.enabledRead,
          hrep.enabledWrite, hrep.readInProgress, hamount⟩⟩
      change (bevAsyncConsiderWriting s.ok p b).1 = some b.launchWrite
      rw [bevAsyncConsiderWriting, if_pos hwants, if_pos hok]
    · refine ⟨{ s with output := eo', ok := false }, { b with ok := false }, rfl,
        ⟨h.reading.mono fun hc => absurd hc Bool.false_ne_true, hinv, h.readProgress,
          Or.inl ⟨hzero, hidle⟩⟩, ?_,
        ⟨hrep.input, hrep.output.trans hcontents.symm, rfl, hrep.enabledRead, hrep.enabledWrite,
          hrep.readInProgress, hrep.writeInProgress⟩⟩
      rw [bevAsyncConsiderWriting, if_pos hwants]
      rfl
  · refine ⟨s, b, ?_, h, ?_, hrep⟩
    · rw [BuffereventAsync.considerWriting]
      by_cases hzero : s.writeInProgress = 0
      · rw [if_neg (not_not_intro hzero), if_pos]
        by_contra hgo
        refine hwants ?_
        have hgo' : (s.ok = true ∧ s.enabledWrite = true) ∧ s.output.buffer.totalLen ≠ 0 := by
          simpa using hgo
        have hne : ¬ b.output = [] := fun hc => hgo'.2 (hnil.mp hc)
        simp [Bufferevent.wantsWrite, hrep.writeInProgress, hrep.ok, hrep.enabledWrite, hzero,
          hgo'.1.1, hgo'.1.2, hne]
      · rw [if_pos hzero]
    · rw [bevAsyncConsiderWriting, if_neg hwants]

/-- `read_complete` with chains is `read_complete` with lists, on the bytes the kernel has
put into the vectors; they are no more than were asked for. -/
theorem Inv.readComplete {s : BuffereventAsync} {b : Bufferevent} (h : s.Inv)
    (hrep : Represents s b) (t : Tid) (p : Addr) (ok : Bool) (hprogress : s.readInProgress ≠ 0) :
    ∃ s', s.readComplete ok = some s' ∧ s'.Inv ∧ s.received.length ≤ s.readInProgress ∧
      Represents s' (IocpEcho.readComplete t p s.received ok b).1 := by
  obtain ⟨hmax, hreading⟩ := h.readInProgress_eq hprogress
  obtain ⟨eo', hcommit, hinv, hidle, hcontents⟩ := h.reading.commit ok hreading
  have hcommit' : s.input.evbufferCommitRead s.received.length = some eo' := hcommit
  have hle : s.received.length ≤ s.readInProgress := by
    rcases h.reading.phase with ⟨hidle', -⟩ | ⟨front, t, hr, hle, -⟩
    · have hidle : s.input.readInProgress = false := hidle'.inProgress
      rw [hreading] at hidle
      cases hidle
    · rw [hmax, ← hr.room]
      exact hle
  rw [BuffereventAsync.readComplete, if_neg hprogress, hcommit', Option.map_some]
  refine ⟨_, rfl, ⟨hinv, h.writing.setOk _, Or.inl ⟨rfl, hidle⟩, h.writeProgress⟩, hle, ?_⟩
  have hinput : b.input ++ s.received = eo'.buffer.contents := by
    rw [hrep.input]
    exact hcontents.symm
  rw [IocpEcho.readComplete]
  dsimp only
  rw [hrep.ok]
  cases hok : s.ok with
  | false => exact ⟨hinput, hrep.output, rfl, hrep.enabledRead,
      hrep.enabledWrite, rfl, hrep.writeInProgress⟩
  | true =>
      rw [if_pos rfl]
      by_cases hgood : (ok && decide (s.received ≠ [])) = true
      · rw [if_pos hgood]
        exact ⟨hinput, hrep.output, hgood.symm, hrep.enabledRead,
          hrep.enabledWrite, rfl, hrep.writeInProgress⟩
      · rw [if_neg hgood]
        exact ⟨hinput, hrep.output, (Bool.eq_false_iff.mpr hgood).symm, hrep.enabledRead,
          hrep.enabledWrite, rfl, hrep.writeInProgress⟩

/-- `write_complete` with chains is `write_complete` with lists, on the number of bytes the
kernel has sent; they are no more than were asked for. -/
theorem Inv.writeComplete {s : BuffereventAsync} {b : Bufferevent} (h : s.Inv)
    (hrep : Represents s b) (t : Tid) (p : Addr) (ok : Bool) (hprogress : s.writeInProgress ≠ 0) :
    ∃ s', s.writeComplete ok = some s' ∧ s'.Inv ∧ s.sent ≤ s.writeInProgress ∧
      Represents s' (IocpEcho.writeComplete t p s.sent ok b).1 := by
  obtain ⟨hwriting, hsize⟩ := h.writeInProgress_eq hprogress
  obtain ⟨eo', hcommit, hinv, hidle, hcontents⟩ := h.writing.commit ok hwriting
  have hcommit' : s.output.evbufferCommitWrite s.sent = some eo' := hcommit
  have hle : s.sent ≤ s.writeInProgress := by
    rcases h.writing.phase with ⟨hidle', -⟩ | ⟨hle, -⟩
    · have hidle : s.output.writeInProgress = false := hidle'.inProgress
      rw [hwriting] at hidle
      cases hidle
    · exact Nat.le_trans hle hsize
  have hmono : (s.ok && ok && decide (s.sent ≠ 0)) = true → s.ok = true := fun hc =>
    (Bool.and_eq_true_iff.mp (Bool.and_eq_true_iff.mp hc).1).1
  rw [BuffereventAsync.writeComplete, if_neg hprogress, hcommit', Option.map_some]
  refine ⟨_, rfl, ⟨h.reading.mono hmono, hinv, h.readProgress, Or.inl ⟨rfl, hidle⟩⟩, hle, ?_⟩
  have houtput : b.output.drop s.sent = eo'.buffer.contents := by
    rw [hrep.output]
    exact hcontents.symm
  rw [IocpEcho.writeComplete]
  dsimp only
  rw [hrep.ok]
  cases hok : s.ok with
  | false => exact ⟨hrep.input, houtput, rfl, hrep.enabledRead,
      hrep.enabledWrite, hrep.readInProgress, rfl⟩
  | true =>
      rw [if_pos rfl]
      by_cases hgood : (ok && decide (s.sent ≠ 0)) = true
      · rw [if_pos hgood]
        exact ⟨hrep.input, houtput, hgood.symm, hrep.enabledRead,
          hrep.enabledWrite, hrep.readInProgress, rfl⟩
      · rw [if_neg hgood]
        exact ⟨hrep.input, houtput, (Bool.eq_false_iff.mpr hgood).symm, hrep.enabledRead,
          hrep.enabledWrite, hrep.readInProgress, rfl⟩

/-! ### Every step -/

/-- **Every step of the bufferevent with chains is a step of the bufferevent with lists.**
From a state of the invariant every enabled step succeeds and keeps it, and the picture takes
the step that it shows. -/
theorem inv_shows {P : Platform} {s : BuffereventAsync} {b : Bufferevent} (h : s.Inv)
    (hrep : Represents s b) (t : Tid) (p : Addr) {l : AsyncLabel} (hl : s.Enabled l) :
    ∃ s' o b', s.step P l = some s' ∧ s'.Inv ∧ Shows s s' l o ∧
      (∀ l' ∈ o, b.step t p l' = some b') ∧ (o = none → b' = b) ∧ Represents s' b' := by
  cases l with
  | arrive c =>
      obtain ⟨hprogress, hroom⟩ := hl
      obtain ⟨r, harrive, hinv, hok, hsame, hcontents⟩ :=
        h.reading.arrive c (h.readInProgress_eq hprogress).2 hroom
      refine ⟨_, none, b, by rw [step, harrive]; rfl, h.setReadSide hinv hok hsame, .arrive c,
        (fun l hl => absurd hl (Option.not_mem_none l)), fun _ => rfl, ?_⟩
      exact ⟨hrep.input.trans hcontents.symm, hrep.output, hrep.ok, hrep.enabledRead,
        hrep.enabledWrite, hrep.readInProgress, hrep.writeInProgress⟩
  | send =>
      obtain ⟨hprogress, hmore⟩ := hl
      obtain ⟨w, hsend, hinv, hok, heo⟩ :=
        h.writing.send (h.writeInProgress_eq hprogress).1 hmore
      refine ⟨_, none, b, by rw [step, hsend]; rfl, h.setWriteSide hinv (by rw [heo]; rfl)
        (by rw [heo]; rfl), .send, (fun l hl => absurd hl (Option.not_mem_none l)), fun _ => rfl,
        ?_⟩
      refine ⟨hrep.input, ?_, hrep.ok, hrep.enabledRead, hrep.enabledWrite, hrep.readInProgress,
        hrep.writeInProgress⟩
      change b.output = w.eo.buffer.contents
      rw [heo]
      exact hrep.output
  | enable read write =>
      refine ⟨_, _, { b with
          enabledRead := b.enabledRead || read
          enabledWrite := b.enabledWrite || write }, rfl,
        ⟨h.reading, h.writing, h.readProgress, h.writeProgress⟩, .enable read write,
        (fun l hl => ?_), (fun hc => absurd hc (Option.some_ne_none _)), ?_⟩
      · obtain rfl := Option.some.inj hl
        rfl
      · exact ⟨hrep.input, hrep.output, hrep.ok, by simp [hrep.enabledRead],
          by simp [hrep.enabledWrite], hrep.readInProgress, hrep.writeInProgress⟩
  | cancelAll =>
      refine ⟨_, _, { b with ok := false }, rfl,
        ⟨h.reading.mono fun hc => absurd hc Bool.false_ne_true, h.writing.setOk false,
          h.readProgress, h.writeProgress⟩, .cancelAll, (fun l hl => ?_),
        (fun hc => absurd hc (Option.some_ne_none _)), ?_⟩
      · obtain rfl := Option.some.inj hl
        rfl
      · exact ⟨hrep.input, hrep.output, rfl, hrep.enabledRead, hrep.enabledWrite,
          hrep.readInProgress, hrep.writeInProgress⟩
  | considerReading malloc wsaRecv =>
      obtain ⟨s', b', hstep, hinv, hlist, hrep'⟩ :=
        @Inv.considerReading P s b h hrep p malloc wsaRecv
      refine ⟨s', _, b', hstep, hinv, .considerReading malloc wsaRecv, (fun l hl => ?_),
        (fun hc => absurd hc (Option.some_ne_none _)), hrep'⟩
      obtain rfl := Option.some.inj hl
      exact hlist
  | considerWriting wsaSend =>
      obtain ⟨s', b', hstep, hinv, hlist, hrep'⟩ := h.considerWriting hrep p wsaSend
      refine ⟨s', _, b', hstep, hinv, .considerWriting wsaSend, (fun l hl => ?_),
        (fun hc => absurd hc (Option.some_ne_none _)), hrep'⟩
      obtain rfl := Option.some.inj hl
      exact hlist
  | readComplete ok =>
      obtain ⟨s', hstep, hinv, hle, hrep'⟩ := h.readComplete hrep t p ok hl
      refine ⟨s', _, _, hstep, hinv, .readComplete ok, (fun l hl' => ?_),
        (fun hc => absurd hc (Option.some_ne_none _)), hrep'⟩
      obtain rfl := Option.some.inj hl'
      refine if_pos ?_
      rw [hrep.readInProgress]
      exact ⟨hl, hle⟩
  | writeComplete ok =>
      obtain ⟨s', hstep, hinv, hle, hrep'⟩ := h.writeComplete hrep t p ok hl
      refine ⟨s', _, _, hstep, hinv, .writeComplete ok, (fun l hl' => ?_),
        (fun hc => absurd hc (Option.some_ne_none _)), hrep'⟩
      obtain rfl := Option.some.inj hl'
      refine if_pos ?_
      rw [hrep.writeInProgress]
      exact ⟨hl, hle⟩
  | read size =>
      obtain ⟨r, hread, hinv, hok, hsame, htaken, hcontents⟩ := h.reading.read size
      refine ⟨_, _, { b with input := (buffereventRead b.input size).2 }, by rw [step, hread]; rfl,
        h.setReadSide hinv hok hsame, .read size htaken, (fun l hl => ?_),
        (fun hc => absurd hc (Option.some_ne_none _)), ?_⟩
      · obtain rfl := Option.some.inj hl
        rfl
      · refine ⟨?_, hrep.output, hrep.ok, hrep.enabledRead, hrep.enabledWrite, hrep.readInProgress,
          hrep.writeInProgress⟩
        change b.input.drop size = r.eo.buffer.contents
        rw [hcontents, hrep.input]
        rfl
  | write malloc data =>
      rcases @WriteSide.Inv.write P _ h.writing malloc data with
        ⟨w, hwrite, hinv, hok, hsame, hbuffers, hcontents, happended⟩ | hwrite
      · refine ⟨_, _, b.append data, by rw [step, hwrite]; rfl, h.setWriteSide hinv hsame hbuffers,
          .write malloc data happended, (fun l hl => ?_),
          (fun hc => absurd hc (Option.some_ne_none _)), ?_⟩
        · obtain rfl := Option.some.inj hl
          rfl
        · refine ⟨hrep.input, ?_, hrep.ok, hrep.enabledRead, hrep.enabledWrite,
            hrep.readInProgress, hrep.writeInProgress⟩
          change b.output ++ data = w.eo.buffer.contents
          rw [hcontents, hrep.output]
          rfl
      · exact ⟨s, none, b, by rw [step, hwrite]; rfl, h, .writeFailed malloc data rfl,
          (fun l hl => absurd hl (Option.not_mem_none l)), fun _ => rfl, hrep⟩

/-- **The invariant of every run.** -/
theorem inv_of_reach {P : Platform} {mem mem' : ℕ → ℕ → Byte} {s : BuffereventAsync}
    (h : Reach (step P) Enabled (new mem mem') s) : s.Inv := by
  have hrep : s.Inv ∧ ∃ b, Represents s b := by
    refine h.invariant (fun s => s.Inv ∧ ∃ b, Represents s b)
      ⟨inv_new mem mem', _, represents_new mem mem' 0⟩ ?_
    rintro s s' l ⟨hinv, b, hrep⟩ hl hstep
    obtain ⟨s₁, -, b', hs₁, hinv', -, -, -, hrep'⟩ := @inv_shows P s b hinv hrep 0 0 l hl
    rw [hs₁] at hstep
    exact Option.some.inj hstep ▸ ⟨hinv', b', hrep'⟩
  exact hrep.1

/-! ### Results -/

/-- A 32-bit Windows. -/
def win32 : Platform := ⟨2 ^ 32 - 1, 2 ^ 31 - 1, 32, 512, by decide⟩

/-- Start reading, append two bytes and start writing them. -/
def busyLabels : List AsyncLabel :=
  [.enable true false, .considerReading true true, .write (fun _ => true) [65, 66],
    .considerWriting true]

theorem isSome_busyLabels :
    (run (step win32) (new (fun _ _ => 0) fun _ _ => 0) busyLabels).isSome = true := by
  decide +kernel

/-- A bufferevent with a read and a write under way. -/
def busy : BuffereventAsync :=
  (run (step win32) (new (fun _ _ => 0) fun _ _ => 0) busyLabels).get isSome_busyLabels

theorem reach_busy : Reach (step win32) Enabled (new (fun _ _ => 0) fun _ _ => 0) busy := by
  refine reach_of_run (along_of_forall (fun l hl s => ?_) _) (Option.some_get _).symm
  simp only [busyLabels, List.mem_cons, List.not_mem_nil, or_false] at hl
  rcases hl with rfl | rfl | rfl | rfl <;> trivial

/-- **Writing is first in, first out.** In every run, also when the server appends while the
kernel is reading from the chains, the bytes sent and those in the chains of the output that
have not been sent yet are the bytes appended. -/
theorem wire_append_unsent {P : Platform} {mem mem' : ℕ → ℕ → Byte} {s : BuffereventAsync}
    (h : Reach (step P) Enabled (new mem mem') s) :
    s.wire ++ s.output.buffer.contents.drop s.sent = s.appended :=
  (inv_of_reach h).writing.account

theorem wire_append_unsent_busy :
    busy.wire ++ busy.output.buffer.contents.drop busy.sent = [65, 66] :=
  wire_append_unsent reach_busy

/-- **The kernel stays in pinned memory.** While a read is under way every cell of its vectors
lies in a chain of the input that is pinned, behind the data and within the block; while a
write is under way every cell of its vectors lies in the data of a chain of the output that is
pinned, and holds the byte that comes next in the queue. -/
theorem cell_in_pinned_chain {P : Platform} {mem mem' : ℕ → ℕ → Byte} {s : BuffereventAsync}
    (h : Reach (step P) Enabled (new mem mem') s) {i : ℕ} {p : ℕ × ℕ} :
    (s.readInProgress ≠ 0 → cell s.input.buffers i = some p →
      ∃ c ∈ s.input.buffer.chains, c.memPinnedR = true ∧ p.1 = c.addr ∧
        c.misalign + c.off ≤ p.2 ∧ p.2 < c.bufferLen) ∧
    (s.writeInProgress ≠ 0 → cell s.output.buffers i = some p →
      ∃ c ∈ s.output.buffer.chains, c.memPinnedW = true ∧ p.1 = c.addr ∧ c.misalign ≤ p.2 ∧
        p.2 < c.misalign + c.off ∧
        s.output.buffer.contents[i]? = some (s.output.buffer.mem p.1 p.2)) := by
  have hinv := inv_of_reach h
  constructor
  · intro hne hcell
    have hprogress := (hinv.readInProgress_eq hne).2
    rcases hinv.reading.phase with ⟨hidle, -⟩ | ⟨front, t, hr, -⟩
    · have hidle' : s.input.readInProgress = false := hidle.inProgress
      rw [hprogress] at hidle'
      cases hidle'
    · exact ReadSide.cell_in_space hinv.reading.readsOnly hr hcell
  · intro hne hcell
    have hprogress := (hinv.writeInProgress_eq hne).1
    rcases hinv.writing.phase with ⟨hidle, -⟩ | ⟨-, t, rest, hw⟩
    · have hidle' : s.output.writeInProgress = false := hidle.inProgress
      rw [hprogress] at hidle'
      cases hidle'
    · exact WriteSide.cell_in_data hw hcell

theorem cell_in_pinned_chain_busy :
    ∃ c ∈ busy.output.buffer.chains, c.memPinnedW = true ∧ 0 = c.addr ∧ c.misalign ≤ 1 ∧
      1 < c.misalign + c.off ∧
      busy.output.buffer.contents[1]? = some (busy.output.buffer.mem 0 1) :=
  (@cell_in_pinned_chain _ _ _ _ reach_busy 1 (0, 1)).2 (by decide +kernel) (by decide +kernel)

/-- **Every pin is released.** In every state reached in which no read is under way, no chain
of the input is pinned or dangling, its end is not frozen and there is one reference to it;
likewise for the output and its front. -/
theorem unpinned_of_idle {P : Platform} {mem mem' : ℕ → ℕ → Byte} {s : BuffereventAsync}
    (h : Reach (step P) Enabled (new mem mem') s) :
    (s.readInProgress = 0 → s.input.buffer.dangling = [] ∧ s.input.buffer.freezeEnd = false ∧
      s.input.buffer.refcnt = 1 ∧ ∀ c ∈ s.input.buffer.chains, c.pinned = false) ∧
    (s.writeInProgress = 0 → s.output.buffer.dangling = [] ∧ s.output.buffer.freezeStart = false ∧
      s.output.buffer.refcnt = 1 ∧ ∀ c ∈ s.output.buffer.chains, c.pinned = false) := by
  have hinv := inv_of_reach h
  constructor
  · intro hzero
    have hnone := hinv.input_idle hzero
    rcases hinv.reading.phase with ⟨hidle, -⟩ | ⟨front, t, hr, -⟩
    · exact ⟨hinv.reading.readsOnly.undangled, hidle.freezeEnd, hidle.refcnt, hidle.unpinned⟩
    · have hprogress : s.input.readInProgress = true := hr.inProgress
      rw [hnone] at hprogress
      cases hprogress
  · intro hzero
    have hnone := hinv.output_idle hzero
    rcases hinv.writing.phase with ⟨hidle, -⟩ | ⟨-, t, rest, hw⟩
    · exact ⟨hinv.writing.writesOnly.undangled, hidle.freezeStart, hidle.refcnt, hidle.unpinned⟩
    · have hprogress : s.output.writeInProgress = true := hw.inProgress
      rw [hnone] at hprogress
      cases hprogress

theorem isSome_written : (step win32 busy (.writeComplete true)).isSome = true := by
  decide +kernel

/-- A write is over that has sent nothing yet, so that the chain with its bytes is still there. -/
theorem unpinned_of_idle_written :
    ((step win32 busy (.writeComplete true)).get isSome_written).output.buffer.contents = [65, 66] ∧
      ((step win32 busy (.writeComplete true)).get isSome_written).output.buffer.refcnt = 1 ∧
      ∀ c ∈ ((step win32 busy (.writeComplete true)).get isSome_written).output.buffer.chains,
        c.pinned = false := by
  have hwriting : busy.Enabled (.writeComplete true) := by
    rw [Enabled]
    decide +kernel
  have hreach := reach_busy.step hwriting (Option.some_get isSome_written).symm
  obtain ⟨-, -, hrefcnt, hunpinned⟩ := (unpinned_of_idle hreach).2 (by decide +kernel)
  exact ⟨by decide +kernel, hrefcnt, hunpinned⟩

/-- **No operation is launched on nothing.** In every state reached, the vectors of a read
under way have room for exactly the bytes asked for, and those of a write under way hold at
least one byte, and no more than `write_in_progress`; so a completion of no bytes is never the
answer to an empty request. -/
theorem vectors_of_progress {P : Platform} {mem mem' : ℕ → ℕ → Byte} {s : BuffereventAsync}
    (h : Reach (step P) Enabled (new mem mem') s) :
    (s.readInProgress ≠ 0 → size s.input.buffers = s.readInProgress) ∧
    (s.writeInProgress ≠ 0 →
      0 < size s.output.buffers ∧ size s.output.buffers ≤ s.writeInProgress) := by
  have hinv := inv_of_reach h
  constructor
  · intro hne
    obtain ⟨hmax, hprogress⟩ := hinv.readInProgress_eq hne
    rcases hinv.reading.phase with ⟨hidle, -⟩ | ⟨front, t, hr, -⟩
    · have hidle' : s.input.readInProgress = false := hidle.inProgress
      rw [hprogress] at hidle'
      cases hidle'
    · rw [hmax]
      exact hr.room
  · intro hne
    obtain ⟨hprogress, hsize⟩ := hinv.writeInProgress_eq hne
    rcases hinv.writing.phase with ⟨hidle, -⟩ | ⟨-, t, rest, hw⟩
    · have hidle' : s.output.writeInProgress = false := hidle.inProgress
      rw [hprogress] at hidle'
      cases hidle'
    · exact ⟨hw.some, hsize⟩

theorem vectors_of_progress_busy : size busy.input.buffers = busy.readInProgress ∧
    0 < size busy.output.buffers ∧ size busy.output.buffers ≤ busy.writeInProgress :=
  ⟨(vectors_of_progress reach_busy).1 (by decide +kernel),
    (vectors_of_progress reach_busy).2 (by decide +kernel)⟩

/-- **The callbacks are told of every change, once.** In every state reached, the reports to
the callbacks of either evbuffer lead from the empty buffer to the present length, each from
the length at which the one before it ended, and nothing is left to report. -/
theorem tracks_of_reach {P : Platform} {mem mem' : ℕ → ℕ → Byte} {s : BuffereventAsync}
    (h : Reach (step P) Enabled (new mem mem') s) :
    (Tracks 0 s.input.buffer.infos s.input.buffer.contents.length ∧
      s.input.buffer.nAddForCb = 0 ∧ s.input.buffer.nDelForCb = 0) ∧
    (Tracks 0 s.output.buffer.infos s.output.buffer.contents.length ∧
      s.output.buffer.nAddForCb = 0 ∧ s.output.buffer.nDelForCb = 0) := by
  have hinv := inv_of_reach h
  have hin : s.input.buffer.Wf := hinv.reading.readsOnly.wf
  have hout : s.output.buffer.Wf := hinv.writing.writesOnly.wf
  rw [hin.length_contents, hout.length_contents]
  exact ⟨⟨hin.reports, hin.cleared⟩, hout.reports, hout.cleared⟩

theorem tracks_of_reach_busy :
    Tracks 0 busy.output.buffer.infos busy.output.buffer.contents.length :=
  (tracks_of_reach reach_busy).2.1

end BuffereventAsync

end IocpEcho
