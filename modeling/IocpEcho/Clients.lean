import IocpEcho.Echo

/-!
# The Two Clients

`TestClient1` is a synchronous chat client: it sends one line, receives once into a buffer
of 100 bytes and prints what it got as a C string (`Client/Client/TestClient.cpp`, lines
36–58). `IOCPClient` reads whatever has arrived into a buffer of 256001 bytes and prints it
as one C string (`Client/Client/IOCPClient.cpp`, lines 52–64).

The chat client is run against the echo over a favourable network: every send is one chunk
of the server, every reply arrives whole before the client receives, and `recv` returns
`min(100, bytes available)` bytes. It stays in step exactly as long as every reply fits into
its buffer, which bounds the line at 52 characters (51 from the year 10000 on) and not at
the 99 that `gets_s` lets through. The event client shows the whole stream exactly when no
read of it has a letter behind a NUL.

## Main results

* `chatInStep_iff`: the chat client stays in step exactly on lines of at most 52 characters.
* `showsEveryReply_iff`: the event client shows the greeting and every reply exactly when
  every read is tidy.
-/

namespace IocpEcho

open Terminated

/-! ### The chat client -/

/-- A line that `gets_s` reads into `talk[100]`. -/
structure UserLine where
  chars : List Byte
  fits : chars.length ≤ 99
  noNul : (0 : Byte) ∉ chars

/-- One iteration of the chat: the line typed, and the clock and the memory behind `readbuf`
at the server when it answers. -/
structure Turn where
  line : UserLine
  now : LocalTime
  past : List Byte

/-- The size of `recvBuf`. -/
def recvBufSize : ℕ := 100

/-- `recv(sockClient, recvBuf, 100, 0)` on the bytes that have arrived: the bytes returned
and those left in the socket. -/
def recv (arrived : List Byte) : List Byte × List Byte :=
  (arrived.take recvBufSize, arrived.drop recvBufSize)

/-- The server's reply to `send(sockClient, text, strlen(text) + 1, 0)`. -/
def replyToSend (sin : SockaddrIn) (now : LocalTime) (past text : List Byte) : List Byte :=
  readcbReply (some sin) now past (text ++ [0])

/-- What one iteration of the chat leaves: the bytes `recv` returned and the bytes that stay
unread in the socket. -/
structure TurnResult where
  got : List Byte
  unread : List Byte

/-- One iteration: send the line, wait for the reply, receive once. -/
def chatTurn (sin : SockaddrIn) (unread : List Byte) (turn : Turn) : TurnResult :=
  let r := recv (unread ++ replyToSend sin turn.now turn.past turn.line.chars)
  ⟨r.1, r.2⟩

/-- The `do … while (--n)` loop over the lines typed so far. -/
def chatLoop (sin : SockaddrIn) : ℕ → List Byte → List Turn → List TurnResult
  | 0, _, _ => []
  | _ + 1, _, [] => []
  | n + 1, unread, turn :: turns =>
      let r := chatTurn sin unread turn
      r :: chatLoop sin n r.unread turns

/-- The line that announces the client. -/
def attention : List Byte := bytes "Attention: A Client has enter...\n"

/-- `TestClient1::Run` from the `connect` on: receive the greeting, announce the client,
receive the reply to that, and chat for 500 iterations. -/
def testClient1Run (sin : SockaddrIn) (now : LocalTime) (past : List Byte)
    (turns : List Turn) : List TurnResult :=
  let greeted := recv message
  let announced := recv (greeted.2 ++ replyToSend sin now past attention)
  chatLoop sin 500 announced.2 turns

/-- An iteration is in step: `recv` returned the complete reply to its line, the `%s` print
stops inside `recvBuf`, and nothing stays unread. -/
def InStep (sin : SockaddrIn) (turn : Turn) (r : TurnResult) : Prop :=
  r.got = replyToSend sin turn.now turn.past turn.line.chars ∧
    (0 : Byte) ∈ fillArray recvBufSize r.got ∧ r.unread = []

/-- The longest line whose reply fits into `recvBuf`. -/
def longestLine (now : LocalTime) : ℕ :=
  if now.1.wYear.toNat < 10000 then 52 else 51

/-- The server's reply to a text without NUL that is sent with its terminator. -/
theorem replyToSend_eq (sin : SockaddrIn) (now : LocalTime) (past : List Byte)
    {text : List Byte} (hlen : text.length ≤ 99) (hz : (0 : Byte) ∉ text) :
    replyToSend sin now past text = reply (some sin) now text := by
  have hmax : (text ++ [0]).length ≤ maxToReadEver := by
    rw [List.length_append, List.length_singleton, maxToReadEver]
    omega
  have hzero : (0 : Byte) ∈ text ++ [0] := by simp
  rw [replyToSend, readcbReply, appendCString_readbuf hmax (Or.inr hzero),
    upToFirst_append_of_notMem hz]
  simp [upToFirst]

/-- The length of the reply to a user line. -/
theorem length_replyToSend (sin : SockaddrIn) (now : LocalTime) (past : List Byte)
    {text : List Byte} (hlen : text.length ≤ 99) (hz : (0 : Byte) ∉ text) :
    (replyToSend sin now past text).length = (getTime now).length + text.length + 23 := by
  rw [replyToSend_eq sin now past hlen hz, length_reply]

/-- The reply to a line fits into `recvBuf` exactly when the line is not too long. -/
theorem length_replyToSend_le_iff (sin : SockaddrIn) (turn : Turn) :
    (replyToSend sin turn.now turn.past turn.line.chars).length ≤ recvBufSize ↔
      turn.line.chars.length ≤ longestLine turn.now := by
  rw [length_replyToSend sin turn.now turn.past turn.line.fits turn.line.noNul,
    length_getTime, recvBufSize, longestLine]
  split <;> omega

/-- With nothing unread, an iteration is in step exactly when its reply fits. -/
theorem inStep_chatTurn_iff (sin : SockaddrIn) (turn : Turn) :
    InStep sin turn (chatTurn sin [] turn) ↔
      turn.line.chars.length ≤ longestLine turn.now := by
  rw [← length_replyToSend_le_iff sin turn]
  simp only [InStep, chatTurn, recv, List.nil_append]
  constructor
  · rintro ⟨hgot, -, -⟩
    have hlen := congrArg List.length hgot
    rw [List.length_take] at hlen
    omega
  · intro hfit
    rw [List.take_of_length_le hfit, List.drop_of_length_le hfit]
    refine ⟨rfl, ?_, rfl⟩
    rw [replyToSend_eq sin turn.now turn.past turn.line.fits turn.line.noNul, fillArray]
    refine List.mem_append_left _ ?_
    simp [reply]

/-- From nothing unread, the loop stays in step exactly when every line it sends is short
enough. -/
theorem chatLoop_inStep_iff (sin : SockaddrIn) (n : ℕ) (turns : List Turn) :
    List.Forall₂ (InStep sin) (turns.take n) (chatLoop sin n [] turns) ↔
      ∀ turn ∈ turns.take n, turn.line.chars.length ≤ longestLine turn.now := by
  induction n generalizing turns with
  | zero => simp [chatLoop]
  | succ n ih =>
      cases turns with
      | nil => simp [chatLoop]
      | cons turn turns =>
          rw [List.take_succ_cons, chatLoop, List.forall₂_cons, List.forall_mem_cons]
          constructor
          · rintro ⟨hhead, htail⟩
            have hunread : (chatTurn sin [] turn).unread = [] := hhead.2.2
            rw [hunread] at htail
            exact ⟨(inStep_chatTurn_iff sin turn).mp hhead, (ih turns).mp htail⟩
          · rintro ⟨hhead, htail⟩
            have hstep := (inStep_chatTurn_iff sin turn).mpr hhead
            have hunread : (chatTurn sin [] turn).unread = [] := hstep.2.2
            rw [hunread]
            exact ⟨hstep, (ih turns).mpr htail⟩

/-- Greeting and announcement leave nothing unread. -/
theorem testClient1Run_eq (sin : SockaddrIn) (now : LocalTime) (past : List Byte)
    (turns : List Turn) : testClient1Run sin now past turns = chatLoop sin 500 [] turns := by
  have hgreet : (recv message).2 = [] := by decide
  have hatt : attention.length = 33 := by decide
  have hlen : (replyToSend sin now past attention).length ≤ recvBufSize := by
    rw [length_replyToSend sin now past (by decide) (by decide), length_getTime, hatt,
      recvBufSize]
    split <;> omega
  have hann : (recv (replyToSend sin now past attention)).2 = [] := by
    rw [recv, List.drop_of_length_le hlen]
  simp only [testClient1Run, hgreet, List.nil_append, hann]

/-- **The chat client stays in step with the server exactly when every line it sends is at
most 52 characters long**, 51 once the server's clock shows five-digit years. -/
theorem chatInStep_iff (sin : SockaddrIn) (now : LocalTime) (past : List Byte)
    (turns : List Turn) :
    List.Forall₂ (InStep sin) (turns.take 500) (testClient1Run sin now past turns) ↔
      ∀ turn ∈ turns.take 500, turn.line.chars.length ≤ longestLine turn.now := by
  rw [testClient1Run_eq]
  exact chatLoop_inStep_iff sin 500 turns

/-- A line of 53 characters, which `gets_s` accepts. -/
def longTurn : Turn where
  line := ⟨List.replicate 53 97, by decide, by decide⟩
  now := someTime
  past := []

/-- The reply to a line of 53 characters does not fit: the client is out of step. -/
theorem not_chatInStep_longTurn :
    ¬ List.Forall₂ (InStep ⟨0, 0⟩) ([longTurn].take 500)
      (testClient1Run ⟨0, 0⟩ someTime [] [longTurn]) := by
  rw [testClient1Run_eq, List.take_of_length_le (by decide), chatLoop, List.forall₂_cons]
  rintro ⟨hstep, -⟩
  exact absurd ((inStep_chatTurn_iff _ longTurn).mp hstep) (by decide)

/-! ### The event client -/

/-- One execution of `IOCPClient`'s `iocp_conn_readcb`: the memory behind its `readbuf` and
the bytes in the input buffer. -/
structure ClientRead where
  past : List Byte
  chunk : List Byte

/-- The size of the event client's `readbuf`. -/
def clientReadbufSize : ℕ := 256001

/-- The text `a` that one execution prints, before `std::endl`. -/
def ClientRead.printed (r : ClientRead) : List Byte :=
  appendCString (fillArray clientReadbufSize (buffereventRead r.chunk clientReadbufSize).1)
    r.past

/-- What the server appends to one connection: the greeting, then the replies. -/
def serverOutput (sin : SockaddrIn) (served : List ChunkRead) : List Byte :=
  message ++ (echoReplies sin served).flatten

/-- What the client should show: the greeting followed by every reply without its NUL. -/
def expectedText (sin : SockaddrIn) (served : List ChunkRead) : List Byte :=
  message ++ ((echoReplies sin served).map List.dropLast).flatten

/-- On every run over these reads, the text printed is the greeting followed by every
reply. -/
def ShowsEveryReply (sin : SockaddrIn) (served : List ChunkRead)
    (chunks : List (List Byte)) : Prop :=
  ∀ reads : List ClientRead, reads.map (·.chunk) = chunks →
    (reads.map ClientRead.printed).flatten = expectedText sin served

/-- A read that libevent can deliver is printed as its own C string: the client's `readbuf`
is larger than any read. -/
theorem printed_eq {r : ClientRead} (h : r.chunk.length ≤ maxToReadEver) :
    r.printed = upToFirst 0 r.chunk := by
  have hlt : r.chunk.length < clientReadbufSize := by
    rw [maxToReadEver] at h
    rw [clientReadbufSize]
    omega
  have hzero : (0 : Byte) ∈ r.chunk ++
      List.replicate (clientReadbufSize - r.chunk.length) 0 := by
    refine List.mem_append_right _ (List.mem_replicate.mpr ⟨by omega, rfl⟩)
  simp only [ClientRead.printed, appendCString, buffereventRead, fillArray,
    List.take_of_length_le hlt.le]
  rw [upToFirst_append_of_mem hzero, upToFirst_append_replicate]

/-- A reply without its NUL holds no NUL. -/
theorem filter_readcbReply (sin : SockaddrIn) (r : ChunkRead) :
    (readcbReply (some sin) r.now r.past r.chunk).filter (· ≠ 0)
      = (readcbReply (some sin) r.now r.past r.chunk).dropLast := by
  have hz := zero_notMem_replyText (some sin) r.now
    (zero_notMem_appendCString (readbuf r.chunk) r.past)
  have hself : (replyText (some sin) r.now (appendCString (readbuf r.chunk) r.past)).filter
      (· ≠ 0) = replyText (some sin) r.now (appendCString (readbuf r.chunk) r.past) := by
    refine List.filter_eq_self.mpr fun b hb => ?_
    have hb0 : b ≠ 0 := fun hc => hz (hc ▸ hb)
    simpa using hb0
  rw [readcbReply, reply, List.filter_append, hself, List.dropLast_concat]
  simp

/-- Without its terminators, the server's output is the expected text. -/
theorem filter_serverOutput (sin : SockaddrIn) (served : List ChunkRead) :
    (serverOutput sin served).filter (· ≠ 0) = expectedText sin served := by
  have hmsg : message.filter (· ≠ 0) = message := by decide
  have hreplies : (echoReplies sin served).map (List.filter (· ≠ 0))
      = (echoReplies sin served).map List.dropLast := by
    rw [echoReplies, List.map_map, List.map_map]
    refine List.map_congr_left fun r _ => ?_
    rw [Function.comp_apply, Function.comp_apply]
    exact filter_readcbReply sin r
  rw [serverOutput, List.filter_append, hmsg, List.filter_flatten, hreplies, expectedText]

/-- **The event client shows the greeting and every reply exactly when no read has a letter
behind a NUL.** -/
theorem showsEveryReply_iff {sin : SockaddrIn} {served : List ChunkRead}
    {chunks : List (List Byte)} (hseg : chunks.flatten = serverOutput sin served)
    (hlen : ∀ c ∈ chunks, c.length ≤ maxToReadEver) :
    ShowsEveryReply sin served chunks ↔ ∀ c ∈ chunks, Tidy 0 c := by
  have hprinted : ∀ reads : List ClientRead, reads.map (·.chunk) = chunks →
      reads.map ClientRead.printed = chunks.map (upToFirst 0) := by
    intro reads hreads
    rw [← hreads, List.map_map]
    exact List.map_congr_left fun r hr =>
      printed_eq (hlen _ (hreads ▸ List.mem_map_of_mem hr))
  rw [← flatten_map_upToFirst_eq_iff, hseg, filter_serverOutput]
  constructor
  · intro h
    have hchunks : (chunks.map fun c => (⟨[], c⟩ : ClientRead)).map (·.chunk) = chunks := by
      simp [Function.comp_def]
    rw [← hprinted _ hchunks]
    exact h _ hchunks
  · intro h reads hreads
    rw [hprinted reads hreads]
    exact h

/-- A greeting read alone is shown. -/
theorem showsEveryReply_greeting : ShowsEveryReply ⟨0, 0⟩ [] [message] :=
  (showsEveryReply_iff (by decide) (by decide)).mpr (by decide)

/-- Two short chunks at the server, answered one after the other. -/
def twoServed : List ChunkRead := readsOf [] [[97, 0], [98, 0]]

/-- The replies to the two short chunks. -/
theorem echoReplies_twoServed (sin : SockaddrIn) :
    echoReplies sin twoServed
      = [reply (some sin) someTime [97], reply (some sin) someTime [98]] := by
  have hone : ∀ b : Byte, b ≠ 0 →
      readcbReply (some sin) someTime [] [b, 0] = reply (some sin) someTime [b] := by
    intro b hb
    rw [readcbReply, appendCString_readbuf_nil (by simp [maxToReadEver])]
    simp [upToFirst, hb]
  simp only [echoReplies, twoServed, readsOf, List.map_cons, List.map_nil]
  rw [hone 97 (by decide), hone 98 (by decide)]

/-- Greeting and two replies that arrive in one read: the second reply is not shown. -/
theorem not_showsEveryReply_one_read :
    [serverOutput ⟨0, 0⟩ twoServed].flatten = serverOutput ⟨0, 0⟩ twoServed ∧
      serverOutput ⟨0, 0⟩ twoServed ≠ [] ∧
      (serverOutput ⟨0, 0⟩ twoServed).length ≤ maxToReadEver ∧
      ¬ ShowsEveryReply ⟨0, 0⟩ twoServed [serverOutput ⟨0, 0⟩ twoServed] := by
  have hlen : (serverOutput ⟨0, 0⟩ twoServed).length ≤ maxToReadEver := by
    rw [serverOutput, echoReplies_twoServed]
    decide
  refine ⟨by simp, by simp [serverOutput, message, bytes], hlen, fun h => ?_⟩
  have hrun := h [⟨[], serverOutput ⟨0, 0⟩ twoServed⟩] rfl
  rw [List.map_singleton, printed_eq hlen, serverOutput, expectedText,
    echoReplies_twoServed] at hrun
  exact absurd hrun (by decide)

end IocpEcho
