import IocpEcho.Echo

/-!
# Replies can be decoded

A client that knows nothing but the bytes it receives can tell the replies apart and read
them: every reply ends with the only NUL it holds, and the text before it determines the
clock reading, the port and the bytes echoed, whatever these bytes are. The formats have
fields of fixed width but one: the year takes a fifth digit from 10000 on, and is therefore
read up to the dash behind it. This module gives the decoder (`decodeFrame`) and proves that
it inverts the two `sprintf` formats of the server.

It also shows that both formats stay inside the arrays they print into, `cTime[32]` in
`GetTime` and `sPort[8]` in `iocp_conn_readcb`.

## Main results

* `numberOf_blankPadded`, `numberOf_zeroPadded`: a padded number is read back.
* `decodeFrame_replyText`: the decoder inverts the text of a reply.
* `replies_decodable`: the stream of replies is split and decoded, one frame for each chunk.
-/

namespace IocpEcho

open Terminated

/-! ### Reading numbers back -/

/-- The number a field of digits and leading blanks stands for: a blank counts as the digit
zero. -/
def numberOf (l : List Byte) : ℕ :=
  l.foldl (fun n b => 10 * n + (b.toNat - 48)) 0

/-- The digits of a number are read back. -/
theorem numberOf_decimal (n : ℕ) : numberOf (decimal n) = n := by
  rw [numberOf, decimal, List.foldl_map]
  refine Eq.trans (List.foldl_ext _ _ _ fun k c hc => ?_) Nat.ofDigitChars_ten_toDigits
  have hdigit := Nat.isDigit_of_mem_toDigits (by decide) (by decide) hc
  rw [Char.isDigit_iff_toNat] at hdigit
  have hnine : '9'.toNat = 57 := rfl
  have hbyte : (UInt8.ofNat c.toNat).toNat = c.toNat := by
    rw [UInt8.toNat_ofNat']
    omega
  rw [hbyte]
  rfl

/-- Padding on the left with a byte that counts as zero changes no number. -/
theorem numberOf_leftpad {a : Byte} (ha : a.toNat ≤ 48) (w : ℕ) (l : List Byte) :
    numberOf (l.leftpad w a) = numberOf l := by
  have hpad : ∀ k, (List.replicate k a).foldl (fun n b => 10 * n + (b.toNat - 48)) 0 = 0 := by
    intro k
    induction k with
    | zero => rfl
    | succ k ih =>
        rw [List.replicate_succ, List.foldl_cons]
        have hzero : 10 * 0 + (a.toNat - 48) = 0 := by omega
        rw [hzero, ih]
  rw [List.leftpad, numberOf, List.foldl_append, hpad, numberOf]

theorem numberOf_blankPadded (w n : ℕ) : numberOf (blankPadded w n) = n := by
  rw [blankPadded, numberOf_leftpad (by decide), numberOf_decimal]

theorem numberOf_zeroPadded (w n : ℕ) : numberOf (zeroPadded w n) = n := by
  rw [zeroPadded, numberOf_leftpad (by decide), numberOf_decimal]

/-! ### The decoder -/

/-- A field of `w` bytes and the separator behind it: its number, and what follows. -/
def takeField (w : ℕ) (l : List Byte) : ℕ × List Byte :=
  (numberOf (l.take w), l.drop (w + 1))

/-- What a reply tells about the execution of `iocp_conn_readcb` that wrote it. -/
structure DecodedFrame where
  time : SYSTEMTIME
  sin_port : UInt16
  text : List Byte
  deriving DecidableEq

/-- The decoder of a reply without its NUL. The year is read up to the first dash; behind it
every field has its width, and the echoed text is what stands between the 13 bytes of
` By Svr Sent:` and the last two. -/
def decodeFrame (frame : List Byte) : DecodedFrame :=
  let year := (frame.drop 1).takeWhile (· ≠ 45)
  let month := takeField 2 (frame.drop (1 + (year.length + 1)))
  let day := takeField 2 month.2
  let hour := takeField 2 day.2
  let minute := takeField 2 hour.2
  let second := takeField 2 minute.2
  let milliseconds := takeField 3 second.2
  let port := takeField 5 (milliseconds.2.drop 1)
  { time :=
      { wYear := UInt16.ofNat (numberOf year)
        wMonth := UInt16.ofNat month.1
        wDay := UInt16.ofNat day.1
        wHour := UInt16.ofNat hour.1
        wMinute := UInt16.ofNat minute.1
        wSecond := UInt16.ofNat second.1
        wMilliseconds := UInt16.ofNat milliseconds.1 }
    sin_port := UInt16.ofNat port.1
    text := (port.2.drop 13).dropLast.dropLast }

/-- A field that takes its whole width is cut off at its separator. -/
theorem takeField_append {w : ℕ} {field : List Byte} (hlen : field.length = w) (sep : Byte)
    (rest : List Byte) : takeField w (field ++ sep :: rest) = (numberOf field, rest) := by
  subst hlen
  rw [takeField, List.take_left, List.drop_length_add_append, List.drop_one, List.tail_cons]

theorem takeField_zeroPadded {w n : ℕ} (hw : 0 < w) (h : n < 10 ^ w) (sep : Byte)
    (rest : List Byte) : takeField w (zeroPadded w n ++ sep :: rest) = (n, rest) := by
  rw [takeField_append (length_zeroPadded hw h), numberOf_zeroPadded]

theorem takeField_blankPadded {w n : ℕ} (hw : 0 < w) (h : n < 10 ^ w) (sep : Byte)
    (rest : List Byte) : takeField w (blankPadded w n ++ sep :: rest) = (n, rest) := by
  rw [takeField_append (length_blankPadded hw h), numberOf_blankPadded]

/-- A number padded with blanks ends before the first dash. -/
theorem takeWhile_blankPadded (w n : ℕ) (rest : List Byte) :
    (blankPadded w n ++ 45 :: rest).takeWhile (· ≠ 45) = blankPadded w n := by
  have hpos : ∀ b ∈ blankPadded w n, decide (b ≠ (45 : Byte)) = true := by
    intro b hb
    rw [blankPadded, List.leftpad, List.mem_append] at hb
    rcases hb with hb | hb
    · rw [(List.mem_replicate.mp hb).2]
      decide
    · have hdigit := (toNat_of_mem_decimal hb).1
      refine decide_eq_true fun hc => ?_
      rw [hc] at hdigit
      exact absurd hdigit (by decide)
  rw [List.takeWhile_append_of_pos hpos, List.takeWhile_cons]
  simp

/-- The text of a reply, field by field with the separators as bytes. -/
theorem replyText_eq (sin : SockaddrIn) (now : LocalTime) (text : List Byte) :
    replyText (some sin) now text
      = 91 :: (blankPadded 4 now.1.wYear.toNat ++ 45 ::
          (zeroPadded 2 now.1.wMonth.toNat ++ 45 ::
          (zeroPadded 2 now.1.wDay.toNat ++ 32 ::
          (zeroPadded 2 now.1.wHour.toNat ++ 58 ::
          (zeroPadded 2 now.1.wMinute.toNat ++ 58 ::
          (zeroPadded 2 now.1.wSecond.toNat ++ 46 ::
          (zeroPadded 3 now.1.wMilliseconds.toNat ++ 93 :: 58 ::
          (blankPadded 5 sin.sin_port.toNat ++ 9 ::
          (bytes " By Svr Sent:" ++ (text ++ [13] ++ [10])))))))))) := by
  have hlit : bytes "[" = [91] ∧ bytes "-" = [45] ∧ bytes " " = [32] ∧ bytes ":" = [58] ∧
      bytes "." = [46] ∧ bytes "]" = [93] ∧ bytes "\t" = [9] ∧
      bytes "\r\n" = [13, 10] := by decide
  obtain ⟨h1, h2, h3, h4, h5, h6, h7, h8⟩ := hlit
  simp only [replyText, header, getTime, sPort, h1, h2, h3, h4, h5, h6, h7, h8,
    List.append_assoc, List.cons_append, List.nil_append]

/-- **The decoder inverts the text of a reply**, whatever the echoed text holds. -/
theorem decodeFrame_replyText (sin : SockaddrIn) (now : LocalTime) (text : List Byte) :
    decodeFrame (replyText (some sin) now text) = ⟨now.1, sin.sin_port, text⟩ := by
  obtain ⟨hmo, hda, hho, hmi, hse, hms⟩ := now.2.widths
  have hport : sin.sin_port.toNat < 10 ^ 5 :=
    lt_of_lt_of_le sin.sin_port.toNat_lt (by decide)
  have hmark : (bytes " By Svr Sent:").length = 13 := by decide
  rw [replyText_eq, decodeFrame]
  simp only [List.drop_succ_cons, List.drop_zero, takeWhile_blankPadded, Nat.add_comm 1,
    List.drop_length_add_append]
  rw [takeField_zeroPadded (by decide) hmo, takeField_zeroPadded (by decide) hda,
    takeField_zeroPadded (by decide) hho, takeField_zeroPadded (by decide) hmi,
    takeField_zeroPadded (by decide) hse, takeField_zeroPadded (by decide) hms]
  simp only [List.drop_succ_cons, List.drop_zero]
  rw [takeField_blankPadded (by decide) hport]
  simp only [← hmark, List.drop_left, List.dropLast_concat, UInt16.ofNat_toNat,
    numberOf_blankPadded]

/-! ### The stream of replies -/

/-- The size of `cTime` in `GetTime`. -/
def cTimeSize : ℕ := 32

/-- The size of `sPort` in `iocp_conn_readcb`. -/
def sPortSize : ℕ := 8

/-- The frame a chunk is answered with: the reply without its NUL. -/
def frameOf (sin : SockaddrIn) (r : ChunkRead) : List Byte :=
  replyText (some sin) r.now (upToFirst 0 r.chunk)

/-- The formatted time and its NUL fit into `cTime`. -/
theorem getTime_fits (now : LocalTime) : (getTime now).length + 1 ≤ cTimeSize := by
  rw [length_getTime, cTimeSize]
  split <;> omega

/-- The formatted port and its NUL fit into `sPort`. -/
theorem sPort_fits (sin : SockaddrIn) : (sPort sin).length + 1 ≤ sPortSize := by
  rw [length_sPort, sPortSize]
  omega

/-- The replies to chunks that leave room in `readbuf` are their frames, each ended by a
NUL. -/
theorem echoReplies_eq_frames {sin : SockaddrIn} {reads : List ChunkRead}
    (hlen : ∀ r ∈ reads, r.chunk.length < maxToReadEver) :
    echoReplies sin reads = (reads.map (frameOf sin)).map fun f => f ++ [0] := by
  rw [echoReplies, List.map_map]
  refine List.map_congr_left fun r hr => ?_
  have hr := hlen r hr
  rw [readcbReply, appendCString_readbuf hr.le (Or.inl hr)]
  rfl

/-- **Replies are self-delimiting and decodable.** The formats stay inside their arrays, the
stream of replies splits at its NULs into one frame for each chunk, and a frame can only have
been written for the clock reading, the port and the chunk prefix that it was written for. -/
theorem replies_decodable (sin : SockaddrIn) (reads : List ChunkRead)
    (hlen : ∀ r ∈ reads, 1 ≤ r.chunk.length ∧ r.chunk.length < maxToReadEver) :
    (∀ r ∈ reads, (getTime r.now).length + 1 ≤ cTimeSize ∧
        (sPort sin).length + 1 ≤ sPortSize) ∧
      (echoReplies sin reads).flatten.splitOn 0 = reads.map (frameOf sin) ++ [[]] ∧
      ∀ r ∈ reads,
        decodeFrame (frameOf sin r) = ⟨r.now.1, sin.sin_port, upToFirst 0 r.chunk⟩ ∧
        ∀ (sin' : SockaddrIn) (now' : LocalTime) (text' : List Byte),
          replyText (some sin') now' text' = frameOf sin r →
            now' = r.now ∧ sin'.sin_port = sin.sin_port ∧ text' = upToFirst 0 r.chunk := by
  refine ⟨fun r _ => ⟨getTime_fits r.now, sPort_fits sin⟩, ?_, fun r _ => ⟨?_, ?_⟩⟩
  · rw [echoReplies_eq_frames fun r hr => (hlen r hr).2]
    refine splitOn_flatten_terminated fun f hf => ?_
    obtain ⟨r, -, rfl⟩ := List.mem_map.mp hf
    exact zero_notMem_replyText _ _ (notMem_upToFirst _)
  · exact decodeFrame_replyText sin r.now _
  · intro sin' now' text' heq
    have hdecode := congrArg decodeFrame heq
    rw [frameOf, decodeFrame_replyText, decodeFrame_replyText, DecodedFrame.mk.injEq]
      at hdecode
    obtain ⟨htime, hport, htext⟩ := hdecode
    exact ⟨Subtype.ext htime, hport, htext⟩

/-- A chunk that imitates a header and a line end, and has a byte behind a NUL. -/
def imitation : ChunkRead :=
  ⟨someTime, [], bytes "1:\t By Svr Sent:\r\n" ++ [0, 66]⟩

/-- The reply to the imitation is one frame and is decoded. -/
theorem replies_decodable_imitation :
    (echoReplies ⟨80, 0⟩ [imitation]).flatten.splitOn 0 = [frameOf ⟨80, 0⟩ imitation, []] ∧
      decodeFrame (frameOf ⟨80, 0⟩ imitation)
        = ⟨someTime.1, 80, bytes "1:\t By Svr Sent:\r\n"⟩ := by
  have hlen : ∀ r ∈ [imitation], 1 ≤ r.chunk.length ∧ r.chunk.length < maxToReadEver := by
    intro r hr
    rw [List.mem_singleton.mp hr]
    decide
  obtain ⟨-, hsplit, hdecode⟩ := replies_decodable ⟨80, 0⟩ [imitation] hlen
  exact ⟨hsplit, (hdecode imitation List.mem_cons_self).1⟩

end IocpEcho
