import IocpEcho.Reply

/-!
# What the Echo keeps of a Byte Stream

`iocp_conn_readcb` ignores the length that `bufferevent_read` returns and appends `readbuf`
as one C string. This module settles what that does to the bytes of a client.

A chunk that exactly fills `readbuf` and holds no NUL is read past the end of the array;
`WriteData` of the event client sends such a chunk. And a chunk with letters behind a NUL is
cut at that NUL, so the echo of a stream of NUL-terminated messages depends on where the
network cuts it.

## Main results

* `appendInBounds_iff`: the append stays inside `readbuf` exactly when the chunk leaves room
  in it or brings a NUL.
* `echoLossless_iff`: the replies to a stream of NUL-terminated messages carry all its
  letters exactly when no chunk has a letter behind a NUL and every append stays in bounds.
-/

namespace IocpEcho

open Terminated

/-! ### The append of one chunk -/

/-- The append of a chunk is in bounds: it finds a NUL inside `readbuf`, and the reply is
made of bytes the client sent, whatever lies behind the array. -/
def AppendInBounds (input : List Byte) : Prop :=
  (0 : Byte) ∈ readbuf input ∧
    ∀ entry now, ∃ text, text <+: input ∧
      ∀ past, readcbReply entry now past input = reply entry now text

/-- **The append stays inside `readbuf` exactly when the chunk leaves room in it or brings a
NUL.** -/
theorem appendInBounds_iff {input : List Byte} (h : input.length ≤ maxToReadEver) :
    AppendInBounds input ↔ input.length < maxToReadEver ∨ (0 : Byte) ∈ input := by
  constructor
  · rintro ⟨hmem, -⟩
    exact (zero_mem_readbuf_iff h).mp hmem
  · intro hz
    refine ⟨(zero_mem_readbuf_iff h).mpr hz, fun entry now => ?_⟩
    refine ⟨upToFirst 0 input, upToFirst_prefix input, fun past => ?_⟩
    rw [readcbReply, appendCString_readbuf h hz]

/-- A one-byte chunk is appended in bounds. -/
theorem appendInBounds_singleton : AppendInBounds [65] :=
  (appendInBounds_iff (by decide)).mpr (Or.inl (by decide))

/-- The buffer that `WriteData` of the event client sends: `memset(MESSAGE, 65, ...)`. -/
def writeDataMessage : List Byte := List.replicate maxToReadEver 65

/-- The chunk of `WriteData` fills `readbuf` and is read past its end. -/
theorem not_appendInBounds_writeData :
    1 ≤ writeDataMessage.length ∧ writeDataMessage.length ≤ maxToReadEver ∧
      ¬ AppendInBounds writeDataMessage := by
  have hlen : writeDataMessage.length = maxToReadEver := List.length_replicate
  refine ⟨by rw [hlen]; decide, hlen.le, ?_⟩
  rintro ⟨hmem, -⟩
  rw [readbuf_eq hlen.le, hlen, Nat.sub_self, List.replicate_zero, List.append_nil] at hmem
  exact absurd (List.eq_of_mem_replicate hmem) (by decide)

/-! ### The echo of a stream of messages -/

/-- One execution of `iocp_conn_readcb` on a registered connection: the clock it reads, the
memory behind its `readbuf`, and the chunk in the input buffer. -/
structure ChunkRead where
  now : LocalTime
  past : List Byte
  chunk : List Byte

/-- The replies written for a sequence of chunks. -/
def echoReplies (sin : SockaddrIn) (reads : List ChunkRead) : List (List Byte) :=
  reads.map fun r => readcbReply (some sin) r.now r.past r.chunk

/-- The byte stream of a list of messages, each sent as `TestClient1` sends it. -/
def encodeMessages (ms : List (List Byte)) : List Byte :=
  (ms.map fun m => m ++ [0]).flatten

/-- The echo of a segmented stream loses nothing: on every run over these chunks, the payload
parts of the replies make up the messages. -/
def EchoLossless (ms chunks : List (List Byte)) : Prop :=
  ∀ (sin : SockaddrIn) (reads : List ChunkRead), reads.map (·.chunk) = chunks →
    ((echoReplies sin reads).filterMap payloadPart).flatten = ms.flatten

/-- The payload parts of the replies are the C strings appended. -/
theorem filterMap_payloadPart_echoReplies (sin : SockaddrIn) (reads : List ChunkRead) :
    (echoReplies sin reads).filterMap payloadPart
      = reads.map fun r => appendCString (readbuf r.chunk) r.past := by
  induction reads with
  | nil => rfl
  | cons r reads ih =>
      have hr : payloadPart (readcbReply (some sin) r.now r.past r.chunk)
          = some (appendCString (readbuf r.chunk) r.past) := payloadPart_reply sin r.now _
      have ih' : ((reads.map fun r => readcbReply (some sin) r.now r.past r.chunk).filterMap
          payloadPart) = reads.map fun r => appendCString (readbuf r.chunk) r.past := ih
      simp only [echoReplies, List.map_cons]
      rw [List.filterMap_cons_some hr, ih']

/-- Without its terminators, the stream is the concatenation of the messages. -/
theorem filter_encodeMessages {ms : List (List Byte)} (hms : ∀ m ∈ ms, (0 : Byte) ∉ m) :
    (encodeMessages ms).filter (· ≠ 0) = ms.flatten := by
  induction ms with
  | nil => rfl
  | cons m ms ih =>
      have hm : m.filter (· ≠ 0) = m := by
        refine List.filter_eq_self.mpr fun b hb => ?_
        have hb0 : b ≠ 0 := fun hc => hms m List.mem_cons_self (hc ▸ hb)
        simpa using hb0
      have ih' : ((ms.map fun m => m ++ [0]).flatten).filter (· ≠ 0) = ms.flatten :=
        ih fun m hm => hms m (List.mem_cons_of_mem _ hm)
      simp only [encodeMessages, List.map_cons, List.flatten_cons, List.filter_append]
      rw [hm, ih']
      simp

/-- The reads of given chunks at a fixed clock and a fixed memory behind `readbuf`. -/
def readsOf (past : List Byte) (chunks : List (List Byte)) : List ChunkRead :=
  chunks.map fun c => ⟨someTime, past, c⟩

/-- A lossless echo, read off at a fixed memory behind `readbuf`. -/
theorem EchoLossless.flatten_append {ms chunks : List (List Byte)}
    (h : EchoLossless ms chunks) (past : List Byte) :
    (chunks.map fun c => appendCString (readbuf c) past).flatten = ms.flatten := by
  have hchunks : (readsOf past chunks).map (·.chunk) = chunks := by
    simp [readsOf, Function.comp_def]
  have hrun := h ⟨0, 0⟩ (readsOf past chunks) hchunks
  rw [filterMap_payloadPart_echoReplies] at hrun
  simpa [readsOf, Function.comp_def] using hrun

/-- With a NUL right behind the array, every chunk is read as its own C string. -/
theorem appendCString_readbuf_nil {c : List Byte} (h : c.length ≤ maxToReadEver) :
    appendCString (readbuf c) [] = upToFirst 0 c := by
  rw [appendCString, List.append_nil, upToFirst_readbuf h]

/-- With a letter behind the array, no chunk reads shorter than its own C string, and a full
chunk without NUL reads longer. -/
theorem length_appendCString_one {c : List Byte} (h : c.length ≤ maxToReadEver) :
    (upToFirst 0 c).length ≤ (appendCString (readbuf c) [1]).length ∧
      ((upToFirst 0 c).length = (appendCString (readbuf c) [1]).length →
        c.length < maxToReadEver ∨ (0 : Byte) ∈ c) := by
  by_cases hz : c.length < maxToReadEver ∨ (0 : Byte) ∈ c
  · rw [appendCString_readbuf h hz]
    exact ⟨le_refl _, fun _ => hz⟩
  · obtain ⟨hlen, hmem⟩ := not_or.mp hz
    have hfull : c.length = maxToReadEver := by omega
    rw [appendCString_readbuf_full hfull hmem, upToFirst_of_notMem hmem]
    have hone : upToFirst (0 : Byte) [1] = [1] := by decide
    rw [hone, List.length_append, List.length_singleton]
    exact ⟨by omega, fun hc => by omega⟩

/-- **The echo of a segmented stream of messages loses nothing exactly when no chunk has a
letter behind a NUL and no chunk fills `readbuf` without a NUL.** -/
theorem echoLossless_iff {ms chunks : List (List Byte)} (hms : ∀ m ∈ ms, (0 : Byte) ∉ m)
    (hseg : chunks.flatten = encodeMessages ms)
    (hlen : ∀ c ∈ chunks, c.length ≤ maxToReadEver) :
    EchoLossless ms chunks ↔
      ∀ c ∈ chunks, Tidy 0 c ∧ (c.length < maxToReadEver ∨ (0 : Byte) ∈ c) := by
  have hfilter : chunks.flatten.filter (· ≠ 0) = ms.flatten := by
    rw [hseg, filter_encodeMessages hms]
  constructor
  · intro h
    have hnil : (chunks.map (upToFirst 0)).flatten = ms.flatten := by
      rw [← h.flatten_append []]
      congr 1
      exact List.map_congr_left fun c hc => (appendCString_readbuf_nil (hlen c hc)).symm
    have htidy : ∀ c ∈ chunks, Tidy 0 c :=
      flatten_map_upToFirst_eq_iff.mp (hnil.trans hfilter.symm)
    have hone := congrArg List.length (hnil.trans (h.flatten_append [1]).symm)
    have hall := length_eq_of_length_flatten_eq
      (fun c hc => (length_appendCString_one (hlen c hc)).1) hone
    exact fun c hc => ⟨htidy c hc, (length_appendCString_one (hlen c hc)).2 (hall c hc)⟩
  · intro h sin reads hreads
    have hpay : (reads.map fun r => appendCString (readbuf r.chunk) r.past)
        = chunks.map (upToFirst 0) := by
      rw [← hreads, List.map_map]
      refine List.map_congr_left fun r hr => ?_
      have hc : r.chunk ∈ chunks := hreads ▸ List.mem_map_of_mem hr
      exact appendCString_readbuf (hlen _ hc) (h _ hc).2 r.past
    rw [filterMap_payloadPart_echoReplies, hpay,
      flatten_map_upToFirst_eq_iff.mpr fun c hc => (h c hc).1, hfilter]

/-- Two messages, each read as one chunk, are echoed whole. -/
theorem echoLossless_two_chunks : EchoLossless [[97], [98]] [[97, 0], [98, 0]] :=
  (echoLossless_iff (by decide) (by decide) (by decide)).mpr (by decide)

/-- Two messages that arrive in one chunk: the second one is lost. -/
theorem not_echoLossless_one_chunk :
    (∀ m ∈ [[97], [98]], (0 : Byte) ∉ m) ∧
      [[97, 0, 98, 0]].flatten = encodeMessages [[97], [98]] ∧
      (∀ c ∈ [([97, 0, 98, 0] : List Byte)], c ≠ [] ∧ c.length ≤ maxToReadEver) ∧
      ¬ EchoLossless [[97], [98]] [[97, 0, 98, 0]] := by
  refine ⟨by decide, by decide, by decide, fun h => ?_⟩
  have hrun := h.flatten_append []
  rw [List.map_singleton, appendCString_readbuf_nil (by decide)] at hrun
  exact absurd hrun (by decide)

end IocpEcho
