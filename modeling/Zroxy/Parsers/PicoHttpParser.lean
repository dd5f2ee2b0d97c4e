import Zroxy.Utils.BufferManager

/-!
# The request parser (`parsers/http/detail/picohttpparser.c`)

`phr_parse_request` and what it calls, without the SSE branch (the makefile
does not ask for it). `buf` is the list of the bytes from the cursor to
`buf_end`, so advancing the cursor drops bytes, and the offset of the cursor is
the length of the whole input less what is left. The error codes are the ones
of the source: `-1` for a syntax error, `-2` for a request that is not complete.
-/

namespace Zroxy

open Runs

/-- `struct phr_header`; pointers are offsets into the request, a NULL name is
`none`. -/
structure PhrHeader where
  name : Option ℤ
  nameLen : ℕ
  value : ℤ
  valueLen : ℕ
deriving DecidableEq, Repr

/-- What `phr_parse_request` fills in. -/
structure PhrRequest where
  consumed : ℤ
  method : ℤ
  methodLen : ℕ
  path : ℤ
  pathLen : ℕ
  minorVersion : ℤ
  headers : List PhrHeader
deriving DecidableEq, Repr

/-- What `phr_parse_response` fills in. -/
structure PhrResponse where
  consumed : ℤ
  minorVersion : ℤ
  status : ℤ
  msg : ℤ
  msgLen : ℕ
  headers : List PhrHeader
deriving DecidableEq, Repr

namespace Pico

/-- The request ended before it was complete. -/
abbrev partialRequest : ℤ := -2

/-- The request is malformed. -/
abbrev parseError : ℤ := -1

/-- `IS_PRINTABLE_ASCII`. -/
def isPrintableAscii (c : Byte) : Bool := 32 ≤ c && c < 127

/-- The bytes at which `get_token_to_eol` stops: control characters but HT. -/
def isControl (c : Byte) : Bool := (c < 32 && c != 9) || c == 127

def isBlank (c : Byte) : Bool := c == 32 || c == 9

/-- `token_char_map`. -/
def tokenChar (c : Byte) : Bool :=
  (48 ≤ c && c ≤ 57) || (65 ≤ c && c ≤ 90) || (97 ≤ c && c ≤ 122) ||
  [33, 35, 36, 37, 38, 39, 42, 43, 45, 46, 94, 95, 96, 124, 126].contains c

/-- `EXPECT_CHAR(ch)`. -/
def expectChar (ch : Byte) : List Byte → Except ℤ (List Byte)
  | [] => .error partialRequest
  | c :: buf => if c == ch then .ok buf else .error parseError

/-- `EXPECT_CHAR_NO_CHECK` for each character of a literal, where the length has
been checked before. -/
def expectChars : List Byte → List Byte → Except ℤ (List Byte)
  | [], buf => .ok buf
  | ch :: chs, buf => (expectChar ch buf).bind (expectChars chs)

/-- `parse_token`: the cursor stops at `next`. -/
def parseToken (next : Byte) : List Byte → Except ℤ (List Byte)
  | [] => .error partialRequest
  | c :: buf =>
      if c == next then .ok (c :: buf)
      else if !tokenChar c then .error parseError
      else parseToken next buf

/-- `ADVANCE_TOKEN`: the cursor stops at a space. -/
def advanceToken : List Byte → Except ℤ (List Byte)
  | [] => .error partialRequest
  | c :: buf =>
      if c == 32 then .ok (c :: buf)
      else if !isPrintableAscii c && (c < 32 || c == 127) then .error parseError
      else advanceToken buf

/-- The loops that pass over separators: the cursor stops at the first byte
that is none. -/
def skipWhile (p : Byte → Bool) : List Byte → Except ℤ (List Byte)
  | [] => .error partialRequest
  | c :: buf => if p c then skipWhile p buf else .ok (c :: buf)

/-- `get_token_to_eol`: the length of the token, and the cursor behind the line
end (CRLF or LF). -/
def getTokenToEol : List Byte → Except ℤ (ℕ × List Byte)
  | [] => .error partialRequest
  | c :: buf =>
      if isControl c then
        if c == 13 then (expectChar 10 buf).bind fun rest => .ok (0, rest)
        else if c == 10 then .ok (0, buf)
        else .error parseError
      else (getTokenToEol buf).bind fun r => .ok (r.1 + 1, r.2)

/-- The length of a value without its trailing SPs and HTABs. -/
def trimmedLength (value : List Byte) : ℕ := (value.reverse.dropWhile isBlank).length

/-- `parse_http_version`: the minor version. -/
def parseHttpVersion (buf : List Byte) : Except ℤ (ℤ × List Byte) :=
  if buf.length < 9 then .error partialRequest
  else (expectChars [72, 84, 84, 80, 47, 49, 46] buf).bind fun
    | [] => .error partialRequest
    | c :: rest =>
        if c < 48 || 57 < c then .error parseError
        else .ok ((c.toNat : ℤ) - 48, rest)

/-- The name of a header line, with the colon and the blanks behind it; `len`
is the length of the whole request. An empty name is an error. -/
def parseName (len : ℕ) (buf : List Byte) : Except ℤ (ℤ × ℕ × List Byte) :=
  (parseToken 58 buf).bind fun rest =>
    if rest.length = buf.length then .error parseError
    else (skipWhile isBlank rest.tail).bind fun value =>
      .ok ((len : ℤ) - buf.length, buf.length - rest.length, value)

/-- One header line. A line that starts with a blank and is not the first one
continues the line before: its name is NULL. -/
def parseHeaderLine (len : ℕ) (first : Bool) (buf : List Byte) :
    Except ℤ (PhrHeader × List Byte) :=
  let named : Except ℤ (Option ℤ × ℕ × List Byte) :=
    if first || !(buf.head?.any isBlank) then
      (parseName len buf).bind fun r => .ok (some r.1, r.2.1, r.2.2)
    else .ok (none, 0, buf)
  named.bind fun n => (getTokenToEol n.2.2).bind fun t =>
    .ok (⟨n.1, n.2.1, (len : ℤ) - n.2.2.length, trimmedLength (n.2.2.take t.1)⟩, t.2)

/-- `parse_headers`, from the header number `num` on. Each line takes a byte, so
`fuel` is the number of bytes left. -/
def parseHeaders (len maxHeaders : ℕ) : ℕ → ℕ → List Byte →
    Except ℤ (List PhrHeader × List Byte)
  | _, _, [] => .error partialRequest
  | 0, _, _ => .error partialRequest
  | fuel + 1, num, c :: buf =>
      if c == 13 then (expectChar 10 buf).bind fun rest => .ok ([], rest)
      else if c == 10 then .ok ([], buf)
      else if num == maxHeaders then .error parseError
      else (parseHeaderLine len (num == 0) (c :: buf)).bind fun h =>
        (parseHeaders len maxHeaders fuel (num + 1) h.2).bind fun r => .ok (h.1 :: r.1, r.2)

/-- An empty line in front of the request is skipped. -/
def skipEmptyLine : List Byte → Except ℤ (List Byte)
  | [] => .error partialRequest
  | c :: buf =>
      if c == 13 then expectChar 10 buf
      else if c == 10 then .ok buf
      else .ok (c :: buf)

/-- The line end behind the version, which must be there. -/
def expectLineEnd : List Byte → Except ℤ (List Byte)
  | [] => .error partialRequest
  | c :: buf =>
      if c == 13 then expectChar 10 buf
      else if c == 10 then .ok buf
      else .error parseError

/-- `parse_request`, for an input of `len` bytes. -/
def parseRequest (len maxHeaders : ℕ) (buf : List Byte) : Except ℤ PhrRequest :=
  (skipEmptyLine buf).bind fun method =>
  (parseToken 32 method).bind fun methodEnd =>
  (skipWhile (· == 32) methodEnd.tail).bind fun path =>
  (advanceToken path).bind fun pathEnd =>
  (skipWhile (· == 32) pathEnd.tail).bind fun version =>
  if methodEnd.length = method.length ∨ pathEnd.length = path.length then .error parseError
  else (parseHttpVersion version).bind fun v =>
  (expectLineEnd v.2).bind fun lines =>
  (parseHeaders len maxHeaders lines.length 0 lines).bind fun h =>
  .ok {
    consumed := (len : ℤ) - h.2.length
    method := (len : ℤ) - method.length
    methodLen := method.length - methodEnd.length
    path := (len : ℤ) - path.length
    pathLen := path.length - pathEnd.length
    minorVersion := v.1
    headers := h.1 }

/-- `PARSE_INT`: one digit. Where it is used, the length has been checked before. -/
def parseInt (mul : ℤ) : List Byte → Except ℤ (ℤ × List Byte)
  | [] => .error partialRequest
  | c :: buf =>
      if c < 48 || 57 < c then .error parseError
      else .ok (mul * ((c.toNat : ℤ) - 48), buf)

/-- `PARSE_INT_3`. -/
def parseInt3 (buf : List Byte) : Except ℤ (ℤ × List Byte) :=
  (parseInt 100 buf).bind fun a =>
  (parseInt 10 a.2).bind fun b =>
  (parseInt 1 b.2).bind fun c => .ok (a.1 + b.1 + c.1, c.2)

/-- The space behind the version of a response, and those that follow it. -/
def skipSpaces : List Byte → Except ℤ (List Byte)
  | [] => .error partialRequest
  | c :: buf => if c != 32 then .error parseError else skipWhile (· == 32) buf

/-- The message of `msgLen` bytes at the cursor without the spaces in front of
it: how many there are, and the length that is left. Something other than a
space right behind the status code is an error. -/
def trimMessage (msgLen : ℕ) (buf : List Byte) : Except ℤ (ℕ × ℕ) :=
  if msgLen = 0 then .ok (0, 0)
  else if buf.head? = some 32 then
    let spaces := (buf.takeWhile (· == 32)).length
    .ok (spaces, msgLen - spaces)
  else .error parseError

/-- `parse_response`, for an input of `len` bytes. -/
def parseResponse (len maxHeaders : ℕ) (buf : List Byte) : Except ℤ PhrResponse :=
  (parseHttpVersion buf).bind fun v =>
  (skipSpaces v.2).bind fun code =>
  if code.length < 4 then .error partialRequest
  else (parseInt3 code).bind fun s =>
  (getTokenToEol s.2).bind fun t =>
  (trimMessage t.1 s.2).bind fun m =>
  (parseHeaders len maxHeaders t.2.length 0 t.2).bind fun h =>
  .ok {
    consumed := (len : ℤ) - h.2.length
    minorVersion := v.1
    status := s.1
    msg := (len : ℤ) - s.2.length + m.1
    msgLen := m.2
    headers := h.1 }

/-- The loop of `is_complete`: the cursor stops behind the second of two line
ends that follow each other. -/
def isCompleteFrom (retCnt : ℕ) : List Byte → Except ℤ (List Byte)
  | [] => .error partialRequest
  | c :: buf =>
      if c == 13 then
        match buf with
        | [] => .error partialRequest
        | d :: rest =>
            if d != 10 then .error parseError
            else if retCnt + 1 = 2 then .ok rest
            else isCompleteFrom (retCnt + 1) rest
      else if c == 10 then
        if retCnt + 1 = 2 then .ok buf else isCompleteFrom (retCnt + 1) buf
      else isCompleteFrom 0 buf

/-- `is_complete`: the search begins three bytes before the end of the input of
the last call. -/
def isComplete (buf : List Byte) (lastLen : ℕ) : Except ℤ (List Byte) :=
  isCompleteFrom 0 (if lastLen < 3 then buf else buf.drop (lastLen - 3))

/-- The check in front of each of the parsers: a first call, where `last_len` is
0, is not checked. -/
def checkComplete (buf : List Byte) (lastLen : ℕ) : Except ℤ Unit :=
  if lastLen ≠ 0 then (isComplete buf lastLen).bind fun _ => .ok () else .ok ()

end Pico

/-- `phr_parse_request` with `last_len = 0`. -/
def phrParseRequest (buf : List Byte) (maxHeaders : ℕ) : Except ℤ PhrRequest :=
  Pico.parseRequest buf.length maxHeaders buf

/-- `phr_parse_request` with the length of the input of the last call. -/
def phrParseRequestAgain (buf : List Byte) (maxHeaders lastLen : ℕ) : Except ℤ PhrRequest :=
  (Pico.checkComplete buf lastLen).bind fun _ => phrParseRequest buf maxHeaders

/-- `phr_parse_response`. -/
def phrParseResponse (buf : List Byte) (maxHeaders lastLen : ℕ) : Except ℤ PhrResponse :=
  (Pico.checkComplete buf lastLen).bind fun _ => Pico.parseResponse buf.length maxHeaders buf

/-- `phr_parse_headers`: the number of bytes consumed, and the table. -/
def phrParseHeaders (buf : List Byte) (maxHeaders lastLen : ℕ) :
    Except ℤ (ℤ × List PhrHeader) :=
  (Pico.checkComplete buf lastLen).bind fun _ =>
  (Pico.parseHeaders buf.length maxHeaders buf.length 0 buf).bind fun h =>
  .ok ((buf.length : ℤ) - h.2.length, h.1)

end Zroxy
