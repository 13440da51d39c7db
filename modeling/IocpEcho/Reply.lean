import IocpEcho.Terminated
import Mathlib.Algebra.Order.Group.Nat
import Mathlib.Data.List.Infix

/-!
# The Reply of `iocp_conn_readcb`

The server answers every chunk it reads with one text: the wall-clock time, the peer's port
as it stands in `sin_port`, the words ` By Svr Sent:`, the chunk read as a C string, and
`\r\n`, passed to `bufferevent_write` with its terminating NUL. This module embeds that text
(`Server/Header.h`, lines 13–21, and `Server/EventServer/EventServer.cpp`, lines 166–194):
the two `sprintf` formats, the zero-initialised `readbuf` that `bufferevent_read` fills, and
the C-string append that reads it back.

The C-string append stops at the first NUL it finds, in `readbuf` or behind it; what lies
behind the array is a parameter (`past`) of the model.

## Main results

* `length_getTime`: the formatted time takes 25 bytes, 26 from the year 10000 on.
* `length_reply`: the length of a reply to a registered peer.
* `zero_notMem_replyText`: a reply holds exactly one NUL, its last byte.
* `payloadPart_reply`: the text between ` By Svr Sent:` and the final CR LF NUL is the
  C string that was appended, whatever bytes it holds.
* `zero_mem_readbuf_iff`: `readbuf` holds a NUL unless a full chunk without NUL was read.
-/

namespace IocpEcho

open Terminated

/-- A `char` of the program. -/
abbrev Byte := UInt8

/-- The bytes of an ASCII literal, without its terminator. -/
def bytes (s : String) : List Byte :=
  s.toList.map fun c => UInt8.ofNat c.toNat

/-! ### The clock -/

/-- The fields of `SYSTEMTIME` that `GetTime` reads; each is a `WORD`. -/
structure SYSTEMTIME where
  wYear : UInt16
  wMonth : UInt16
  wDay : UInt16
  wHour : UInt16
  wMinute : UInt16
  wSecond : UInt16
  wMilliseconds : UInt16
  deriving DecidableEq

/-- The field ranges that `GetLocalTime` guarantees. -/
structure SYSTEMTIME.InRange (t : SYSTEMTIME) : Prop where
  year : 1601 ≤ t.wYear.toNat ∧ t.wYear.toNat ≤ 30827
  month : 1 ≤ t.wMonth.toNat ∧ t.wMonth.toNat ≤ 12
  day : 1 ≤ t.wDay.toNat ∧ t.wDay.toNat ≤ 31
  hour : t.wHour.toNat < 24
  minute : t.wMinute.toNat < 60
  second : t.wSecond.toNat < 60
  milliseconds : t.wMilliseconds.toNat < 1000

/-- A result of `GetLocalTime`. -/
abbrev LocalTime := { t : SYSTEMTIME // t.InRange }

/-- A clock reading, to run the server at. -/
def someTime : LocalTime :=
  ⟨⟨2016, 5, 4, 12, 30, 15, 250⟩, by constructor <;> decide⟩

/-- The digits of `%d` for a non-negative argument. -/
def decimal (n : ℕ) : List Byte :=
  (Nat.toDigits 10 n).map fun c => UInt8.ofNat c.toNat

/-- `%<width>d`: padded with blanks on the left. -/
def blankPadded (width n : ℕ) : List Byte :=
  (decimal n).leftpad width 32

/-- `%0<width>d`: padded with zeros on the left. -/
def zeroPadded (width n : ℕ) : List Byte :=
  (decimal n).leftpad width 48

/-- `GetTime`: `sprintf` with `"[%4d-%02d-%02d %02d:%02d:%02d.%03d]"`. -/
def getTime (now : LocalTime) : List Byte :=
  bytes "[" ++ blankPadded 4 now.1.wYear.toNat ++ bytes "-" ++
    zeroPadded 2 now.1.wMonth.toNat ++ bytes "-" ++ zeroPadded 2 now.1.wDay.toNat ++
    bytes " " ++ zeroPadded 2 now.1.wHour.toNat ++ bytes ":" ++
    zeroPadded 2 now.1.wMinute.toNat ++ bytes ":" ++ zeroPadded 2 now.1.wSecond.toNat ++
    bytes "." ++ zeroPadded 3 now.1.wMilliseconds.toNat ++ bytes "]"

/-! ### The reply -/

/-- The fields of `sockaddr_in` that the server reads: the port as it stands in memory and
the address printed on accept. -/
structure SockaddrIn where
  sin_port : UInt16
  sin_addr : UInt32
  deriving DecidableEq

/-- `sPort`: `sprintf` with `"%5d\t"`. -/
def sPort (sin : SockaddrIn) : List Byte :=
  blankPadded 5 sin.sin_port.toNat ++ bytes "\t"

/-- What stands before ` By Svr Sent:`: time and port of a registered peer, or the text of
the branch for an unknown one. -/
def header (entry : Option SockaddrIn) (now : LocalTime) : List Byte :=
  match entry with
  | some sin => getTime now ++ bytes ":" ++ sPort sin
  | none => bytes "UNKNOW:IP-"

/-- The string `a` of `iocp_conn_readcb` at line 191. -/
def replyText (entry : Option SockaddrIn) (now : LocalTime) (text : List Byte) : List Byte :=
  header entry now ++ bytes " By Svr Sent:" ++ text ++ bytes "\r\n"

/-- The bytes passed to `bufferevent_write`: `a.c_str()` with `a.length() + 1` bytes. -/
def reply (entry : Option SockaddrIn) (now : LocalTime) (text : List Byte) : List Byte :=
  replyText entry now text ++ [0]

/-- `MAX_TO_READ_EVER`. -/
def maxToReadEver : ℕ := 16384

/-- `MESSAGE` without its terminator, as `strlen(MESSAGE)` measures it. -/
def message : List Byte := bytes "Hello, World!\n"

/-- A zero-initialised array of `size` bytes whose first bytes have been overwritten. -/
def fillArray (size : ℕ) (data : List Byte) : List Byte :=
  data ++ List.replicate (size - data.length) 0

/-- `bufferevent_read`: the bytes copied out and the input that is left. -/
def buffereventRead (input : List Byte) (size : ℕ) : List Byte × List Byte :=
  (input.take size, input.drop size)

/-- `readbuf` after line 171. -/
def readbuf (input : List Byte) : List Byte :=
  fillArray maxToReadEver (buffereventRead input maxToReadEver).1

/-- `a.append(array)` for a `char` array: the C string that starts at the array, which runs
on into the memory behind it (`past`) when the array holds no NUL. -/
def appendCString (array past : List Byte) : List Byte :=
  upToFirst 0 (array ++ past)

/-- The reply of one execution of `iocp_conn_readcb` on a non-empty input. -/
def readcbReply (entry : Option SockaddrIn) (now : LocalTime) (past input : List Byte) :
    List Byte :=
  reply entry now (appendCString (readbuf input) past)

/-! ### Lengths -/

/-- The decimal digits of a number below `10 ^ k`. -/
theorem length_decimal_le {n k : ℕ} (hk : 0 < k) (h : n < 10 ^ k) :
    (decimal n).length ≤ k := by
  rw [decimal, List.length_map]
  exact (Nat.length_toDigits_le_iff (by decide) hk).mpr h

/-- The decimal digits of a number from `10 ^ k` on. -/
theorem lt_length_decimal {n k : ℕ} (hk : 0 < k) (h : 10 ^ k ≤ n) :
    k < (decimal n).length := by
  rw [decimal, List.length_map]
  by_contra hc
  have := (Nat.length_toDigits_le_iff (b := 10) (by decide) hk).mp (not_lt.mp hc)
  omega

theorem length_zeroPadded {n k : ℕ} (hk : 0 < k) (h : n < 10 ^ k) :
    (zeroPadded k n).length = k := by
  rw [zeroPadded, List.length_leftpad]
  exact max_eq_left (length_decimal_le hk h)

theorem length_blankPadded {n k : ℕ} (hk : 0 < k) (h : n < 10 ^ k) :
    (blankPadded k n).length = k := by
  rw [blankPadded, List.length_leftpad]
  exact max_eq_left (length_decimal_le hk h)

/-- The year takes four bytes, and a fifth one from the year 10000 on. -/
theorem length_blankPadded_year (now : LocalTime) :
    (blankPadded 4 now.1.wYear.toNat).length
      = if now.1.wYear.toNat < 10000 then 4 else 5 := by
  have hrange := now.2.year
  split
  · exact length_blankPadded (by decide) (by omega)
  · rename_i hbig
    have hle : (decimal now.1.wYear.toNat).length ≤ 5 :=
      length_decimal_le (by decide) (by omega)
    have hlt : 4 < (decimal now.1.wYear.toNat).length :=
      lt_length_decimal (by decide) (by omega)
    rw [blankPadded, List.length_leftpad]
    omega

/-- Every field but the year fits the width of its format. -/
theorem SYSTEMTIME.InRange.widths {t : SYSTEMTIME} (h : t.InRange) :
    t.wMonth.toNat < 10 ^ 2 ∧ t.wDay.toNat < 10 ^ 2 ∧ t.wHour.toNat < 10 ^ 2 ∧
      t.wMinute.toNat < 10 ^ 2 ∧ t.wSecond.toNat < 10 ^ 2 ∧
      t.wMilliseconds.toNat < 10 ^ 3 := by
  obtain ⟨-, hmo, hda, hho, hmi, hse, hms⟩ := h
  omega

/-- The formatted time takes 25 bytes, 26 from the year 10000 on. -/
theorem length_getTime (now : LocalTime) :
    (getTime now).length = if now.1.wYear.toNat < 10000 then 25 else 26 := by
  obtain ⟨hmo, hda, hho, hmi, hse, hms⟩ := now.2.widths
  simp only [getTime, List.length_append]
  rw [length_blankPadded_year, length_zeroPadded (by decide) hmo,
    length_zeroPadded (by decide) hda, length_zeroPadded (by decide) hho,
    length_zeroPadded (by decide) hmi, length_zeroPadded (by decide) hse,
    length_zeroPadded (by decide) hms]
  have hlit : (bytes "[").length = 1 ∧ (bytes "-").length = 1 ∧ (bytes " ").length = 1 ∧
      (bytes ":").length = 1 ∧ (bytes ".").length = 1 ∧ (bytes "]").length = 1 := by
    decide
  obtain ⟨h1, h2, h3, h4, h5, h6⟩ := hlit
  rw [h1, h2, h3, h4, h5, h6]
  split <;> rfl

/-- The formatted port takes six bytes. -/
theorem length_sPort (sin : SockaddrIn) : (sPort sin).length = 6 := by
  have hport : sin.sin_port.toNat < 10 ^ 5 :=
    lt_of_lt_of_le sin.sin_port.toNat_lt (by decide)
  rw [sPort, List.length_append, length_blankPadded (by decide) hport]
  rfl

/-- The length of a reply to a registered peer. -/
theorem length_reply (sin : SockaddrIn) (now : LocalTime) (text : List Byte) :
    (reply (some sin) now text).length = (getTime now).length + text.length + 23 := by
  have hlit : (bytes ":").length = 1 ∧ (bytes " By Svr Sent:").length = 13 ∧
      (bytes "\r\n").length = 2 := by decide
  obtain ⟨h1, h2, h3⟩ := hlit
  simp only [reply, replyText, header, List.length_append, length_sPort, h1, h2, h3,
    List.length_cons, List.length_nil]
  omega

/-! ### No NUL but the last, and no imitation of the marker in the header -/

/-- The bytes a header is made of: digits and the punctuation of the two formats. -/
def isHeaderByte (b : Byte) : Bool :=
  (48 ≤ b && b ≤ 57) || b ∈ bytes "[]-:. \t"

/-- The bytes of a number are the codes of digits. -/
theorem toNat_of_mem_decimal {n : ℕ} {b : Byte} (h : b ∈ decimal n) :
    48 ≤ b.toNat ∧ b.toNat ≤ 57 := by
  obtain ⟨c, hc, rfl⟩ := List.mem_map.mp h
  have hdigit := Nat.isDigit_of_mem_toDigits (by decide) (by decide) hc
  rw [Char.isDigit_iff_toNat] at hdigit
  have hzero : '0'.toNat = 48 := rfl
  have hnine : '9'.toNat = 57 := rfl
  rw [UInt8.toNat_ofNat']
  omega

/-- A decimal digit is a header byte. -/
theorem isHeaderByte_of_mem_decimal {n : ℕ} {b : Byte} (h : b ∈ decimal n) :
    isHeaderByte b = true := by
  obtain ⟨hlo, hhi⟩ := toNat_of_mem_decimal h
  have hle : (48 : Byte) ≤ b ∧ b ≤ (57 : Byte) :=
    ⟨UInt8.le_iff_toNat_le.mpr hlo, UInt8.le_iff_toNat_le.mpr hhi⟩
  simp [isHeaderByte, hle]

/-- Padding with a header byte keeps header bytes. -/
theorem isHeaderByte_of_mem_leftpad {l : List Byte} {w : ℕ} {a b : Byte}
    (hl : ∀ b ∈ l, isHeaderByte b = true) (ha : isHeaderByte a = true)
    (h : b ∈ l.leftpad w a) : isHeaderByte b = true := by
  rw [List.leftpad, List.mem_append] at h
  rcases h with h | h
  · rw [(List.mem_replicate.mp h).2]
    exact ha
  · exact hl b h

theorem isHeaderByte_of_mem_zeroPadded {w n : ℕ} {b : Byte} (h : b ∈ zeroPadded w n) :
    isHeaderByte b = true :=
  isHeaderByte_of_mem_leftpad (fun _ => isHeaderByte_of_mem_decimal) (by decide) h

theorem isHeaderByte_of_mem_blankPadded {w n : ℕ} {b : Byte} (h : b ∈ blankPadded w n) :
    isHeaderByte b = true :=
  isHeaderByte_of_mem_leftpad (fun _ => isHeaderByte_of_mem_decimal) (by decide) h

theorem isHeaderByte_of_mem_literal {s : String} {b : Byte} (h : b ∈ bytes s)
    (hs : (bytes s).all isHeaderByte = true := by decide) : isHeaderByte b = true :=
  List.all_eq_true.mp hs b h

/-- The header of a registered peer is made of header bytes. -/
theorem isHeaderByte_of_mem_header {sin : SockaddrIn} {now : LocalTime} {b : Byte}
    (h : b ∈ header (some sin) now) : isHeaderByte b = true := by
  simp only [header, getTime, sPort, List.mem_append] at h
  rcases h with ((((((((((((((((h | h) | h) | h) | h) | h) | h) | h) | h) | h) | h) | h) |
    h) | h) | h) | h) | h | h)
  all_goals first
    | exact isHeaderByte_of_mem_zeroPadded h
    | exact isHeaderByte_of_mem_blankPadded h
    | exact isHeaderByte_of_mem_literal h

/-- No header holds a NUL. -/
theorem zero_notMem_header (entry : Option SockaddrIn) (now : LocalTime) :
    (0 : Byte) ∉ header entry now := by
  cases entry with
  | none =>
      have hlit : (0 : Byte) ∉ bytes "UNKNOW:IP-" := by decide
      exact hlit
  | some sin =>
      intro h
      exact absurd (isHeaderByte_of_mem_header h) (by decide)

/-- A reply holds exactly one NUL, its last byte: none stands in its text. -/
theorem zero_notMem_replyText (entry : Option SockaddrIn) (now : LocalTime)
    {text : List Byte} (htext : (0 : Byte) ∉ text) :
    (0 : Byte) ∉ replyText entry now text := by
  have hmark : (0 : Byte) ∉ bytes " By Svr Sent:" := by decide
  have hend : (0 : Byte) ∉ bytes "\r\n" := by decide
  simp only [replyText, List.mem_append, not_or]
  exact ⟨⟨⟨zero_notMem_header entry now, hmark⟩, htext⟩, hend⟩

/-- An appended C string holds no NUL. -/
theorem zero_notMem_appendCString (array past : List Byte) :
    (0 : Byte) ∉ appendCString array past :=
  notMem_upToFirst _

/-! ### The payload part of a reply -/

/-- What follows the first occurrence of a marker. -/
def afterMarker (marker : List Byte) : List Byte → Option (List Byte)
  | [] => if marker = [] then some [] else none
  | b :: l =>
      if marker <+: b :: l then some ((b :: l).drop marker.length) else afterMarker marker l

/-- The payload part of a reply: the text between ` By Svr Sent:` and the final CR LF NUL. -/
def payloadPart (r : List Byte) : Option (List Byte) :=
  (afterMarker (bytes " By Svr Sent:") r).map fun l => l.take (l.length - 3)

/-- The marker at the start is found at once. -/
theorem afterMarker_append {marker : List Byte} (hne : marker ≠ []) (rest : List Byte) :
    afterMarker marker (marker ++ rest) = some rest := by
  obtain ⟨a, m, rfl⟩ := List.exists_cons_of_ne_nil hne
  rw [List.cons_append, afterMarker, if_pos]
  · rw [← List.cons_append, List.drop_left]
  · exact List.prefix_append (a :: m) rest

/-- Text without the marker's second byte, ended by a byte that is not its first one, hides
no occurrence of the marker. -/
theorem afterMarker_skip {a b e : Byte} {m pre rest : List Byte}
    (hpre : b ∉ pre) (he : e ≠ a) (heb : e ≠ b) :
    afterMarker (a :: b :: m) (pre ++ e :: (a :: b :: m ++ rest)) = some rest := by
  induction pre with
  | nil =>
      rw [List.nil_append, afterMarker, if_neg]
      · exact afterMarker_append (by simp) rest
      · intro h
        exact he (List.cons_prefix_cons.mp h).1.symm
  | cons c pre ih =>
      have hc : b ∉ pre := fun h => hpre (List.mem_cons_of_mem _ h)
      rw [List.cons_append, afterMarker, if_neg]
      · exact ih hc
      · intro h
        have h2 := (List.cons_prefix_cons.mp h).2
        cases pre with
        | nil => exact heb (List.cons_prefix_cons.mp h2).1.symm
        | cons d pre =>
            have hd : b = d := (List.cons_prefix_cons.mp h2).1
            exact hc (hd ▸ List.mem_cons_self)

/-- **The payload part of a reply to a registered peer is the appended C string**, also when
that string holds the marker, digits or line ends itself. -/
theorem payloadPart_reply (sin : SockaddrIn) (now : LocalTime) (text : List Byte) :
    payloadPart (reply (some sin) now text) = some text := by
  have hsplit : reply (some sin) now text
      = (getTime now ++ bytes ":" ++ blankPadded 5 sin.sin_port.toNat) ++
        9 :: (32 :: 66 :: bytes "y Svr Sent:" ++ (text ++ [13, 10, 0])) := by
    have hmark : bytes " By Svr Sent:" = 32 :: 66 :: bytes "y Svr Sent:" := by decide
    have htab : bytes "\t" = [9] := by decide
    have hend : bytes "\r\n" = [13, 10] := by decide
    simp [reply, replyText, header, sPort, hmark, htab, hend]
  have hB : (66 : Byte) ∉ getTime now ++ bytes ":" ++ blankPadded 5 sin.sin_port.toNat := by
    intro h
    have hmem : (66 : Byte) ∈ header (some sin) now := by
      rw [header, sPort, ← List.append_assoc]
      exact List.mem_append_left _ h
    exact absurd (isHeaderByte_of_mem_header hmem) (by decide)
  have hmark : bytes " By Svr Sent:" = 32 :: 66 :: bytes "y Svr Sent:" := by decide
  rw [payloadPart, hsplit, hmark, afterMarker_skip hB (by decide) (by decide)]
  simp

/-! ### `readbuf` -/

/-- `readbuf` always has its full size. -/
theorem length_readbuf (input : List Byte) : (readbuf input).length = maxToReadEver := by
  simp only [readbuf, fillArray, buffereventRead, List.length_append, List.length_take,
    List.length_replicate]
  omega

/-- `readbuf` is the chunk followed by the zeros of its initialisation. -/
theorem readbuf_eq {input : List Byte} (h : input.length ≤ maxToReadEver) :
    readbuf input = input ++ List.replicate (maxToReadEver - input.length) 0 := by
  simp only [readbuf, fillArray, buffereventRead, List.take_of_length_le h]

/-- `readbuf` holds a NUL exactly when the chunk leaves room in it or brings one. -/
theorem zero_mem_readbuf_iff {input : List Byte} (h : input.length ≤ maxToReadEver) :
    (0 : Byte) ∈ readbuf input ↔ input.length < maxToReadEver ∨ (0 : Byte) ∈ input := by
  rw [readbuf_eq h, List.mem_append, List.mem_replicate]
  constructor
  · rintro (hmem | ⟨hne, -⟩)
    · exact Or.inr hmem
    · exact Or.inl (by omega)
  · rintro (hlt | hmem)
    · exact Or.inr ⟨by omega, rfl⟩
    · exact Or.inl hmem

/-- The C string that starts at `readbuf` and is ended inside it is the C string of the
chunk. -/
theorem upToFirst_readbuf {input : List Byte} (h : input.length ≤ maxToReadEver) :
    upToFirst 0 (readbuf input) = upToFirst 0 input := by
  rw [readbuf_eq h]
  exact upToFirst_append_replicate input _

/-- A chunk that leaves room in `readbuf` or brings a NUL is appended without reading past
the array. -/
theorem appendCString_readbuf {input : List Byte} (h : input.length ≤ maxToReadEver)
    (hz : input.length < maxToReadEver ∨ (0 : Byte) ∈ input) (past : List Byte) :
    appendCString (readbuf input) past = upToFirst 0 input := by
  rw [appendCString, upToFirst_append_of_mem ((zero_mem_readbuf_iff h).mpr hz),
    upToFirst_readbuf h]

/-- A full chunk without NUL is appended together with what lies behind the array. -/
theorem appendCString_readbuf_full {input : List Byte} (h : input.length = maxToReadEver)
    (hz : (0 : Byte) ∉ input) (past : List Byte) :
    appendCString (readbuf input) past = input ++ upToFirst 0 past := by
  have hbuf : readbuf input = input := by
    rw [readbuf_eq h.le, h, Nat.sub_self, List.replicate_zero, List.append_nil]
  rw [appendCString, hbuf, upToFirst_append_of_notMem hz]

end IocpEcho
