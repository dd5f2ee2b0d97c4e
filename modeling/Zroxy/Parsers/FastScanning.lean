import Zroxy.Parsers.PicoHttpParser

/-!
# The fast scanners (`parsers/http/detail/picohttpparser.c`)

The same scanners as they are compiled. With SSE 4.2, `findchar_fast` looks at
blocks of sixteen bytes in front of each of them; without it, `findchar_fast`
does nothing, and `get_token_to_eol` begins with a loop unrolled eight times.
-/

namespace Zroxy

namespace Pico

/-! ## With SSE -/

/-- The ranges of `_SIDD_CMP_RANGES`: a list of lower and upper bounds. -/
def inRanges (c : Byte) : List Byte → Bool
  | low :: high :: ranges => (low ≤ c && c ≤ high) || inRanges c ranges
  | _ => false

/-- `_mm_cmpestri` on a block: the index of the first byte in one of the ranges,
or the length of the block. -/
def cmpestri (ranges block : List Byte) : ℕ := block.findIdx (inRanges · ranges)

/-- The loop of `findchar_fast` over `n` blocks: the cursor and `found`. -/
def findBlocks (ranges : List Byte) : ℕ → List Byte → List Byte × Bool
  | 0, buf => (buf, false)
  | n + 1, buf =>
      let r := cmpestri ranges (buf.take 16)
      if r ≠ 16 then (buf.drop r, true) else findBlocks ranges n (buf.drop 16)

/-- `findchar_fast` with `__SSE4_2__`. -/
def findcharFast (ranges buf : List Byte) : List Byte × Bool :=
  findBlocks ranges (buf.length / 16) buf

/-- `ranges` of `parse_token`. -/
def tokenRanges : List Byte :=
  [0, 32, 34, 34, 40, 41, 44, 44, 47, 47, 58, 64, 91, 93, 123, 255]

/-- `ranges2` of `ADVANCE_TOKEN`. -/
def pathRanges : List Byte := [0, 32, 127, 127]

/-- `ranges1` of `get_token_to_eol`. -/
def lineRanges : List Byte := [0, 8, 10, 31, 127, 127]

def parseTokenSse (next : Byte) (buf : List Byte) : Except ℤ (List Byte) :=
  let r := findcharFast tokenRanges buf
  if !r.2 && r.1.isEmpty then .error partialRequest else parseToken next r.1

def advanceTokenSse (buf : List Byte) : Except ℤ (List Byte) :=
  let r := findcharFast pathRanges buf
  if !r.2 && r.1.isEmpty then .error partialRequest else advanceToken r.1

/-! ## The end of a line -/

/-- The test for a byte at which `get_token_to_eol` stops. -/
def stopsLine (c : Byte) : Bool := !isPrintableAscii c && isControl c

/-- The last loop of `get_token_to_eol`, a byte at a time. -/
def lineLoop : List Byte → Except ℤ (List Byte)
  | [] => .error partialRequest
  | c :: buf => if stopsLine c then .ok (c :: buf) else lineLoop buf

/-- `FOUND_CTL`, for a token that starts `start` bytes before the end of the input. -/
def foundCtl (start : ℕ) : List Byte → Except ℤ (ℕ × List Byte)
  | [] => .error partialRequest
  | c :: buf =>
      if c == 13 then (expectChar 10 buf).bind fun rest => .ok (start - rest.length - 2, rest)
      else if c == 10 then .ok (start - (c :: buf).length, buf)
      else .error parseError

/-- The rest of `get_token_to_eol` from the cursor and `found` on. -/
def finishLine (start : ℕ) (r : List Byte × Bool) : Except ℤ (ℕ × List Byte) :=
  if r.2 then foundCtl start r.1 else (lineLoop r.1).bind (foundCtl start)

def getTokenToEolSse (buf : List Byte) : Except ℤ (ℕ × List Byte) :=
  finishLine buf.length (findcharFast lineRanges buf)

/-! ## Without SSE -/

/-- `DOIT` as often as it is written down: the cursor, and whether it stands at
a byte that is not printable. -/
def doit : ℕ → List Byte → List Byte × Bool
  | 0, buf => (buf, false)
  | _ + 1, [] => ([], false)
  | n + 1, c :: buf => if !isPrintableAscii c then (c :: buf, true) else doit n buf

/-- The loop unrolled eight times, run while there are eight bytes. Each turn
takes a byte, so `fuel` is the number of bytes. -/
def unrolledLoop : ℕ → List Byte → List Byte × Bool
  | 0, buf => (buf, false)
  | fuel + 1, buf =>
      if buf.length < 8 then (buf, false)
      else match doit 8 buf with
        | (buf, false) => unrolledLoop fuel buf
        | ([], true) => ([], false)
        | (c :: buf, true) => if isControl c then (c :: buf, true) else unrolledLoop fuel buf

def getTokenToEolUnrolled (buf : List Byte) : Except ℤ (ℕ × List Byte) :=
  finishLine buf.length (unrolledLoop buf.length buf)

end Pico

end Zroxy
