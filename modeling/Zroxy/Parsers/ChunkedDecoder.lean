import Mathlib.Tactic.Ring
import Zroxy.Parsers.PicoHttpParser

/-!
# The chunked decoder (`parsers/http/detail/picohttpparser.c`)

`phr_decode_chunked` decodes in place: `src` is the cursor, and the chunk data
are moved down to `dst`. A turn of one of the `for` loops, and the case of the
chunk data, is one step here; a case that falls through to the next one stores
the state of that one first, so that it may be left and entered again.
-/

namespace Zroxy

open OffsetMemory

/-- `_state`. -/
inductive ChunkedState where
  | inChunkSize
  | inChunkExt
  | inChunkData
  | inChunkCrlf
  | inTrailersLineHead
  | inTrailersLineMiddle
deriving DecidableEq, Repr

/-- `struct phr_chunked_decoder`. -/
structure PhrChunkedDecoder where
  bytesLeftInChunk : ℕ
  consumeTrailer : Bool
  hexCount : ℕ
  state : ChunkedState
deriving DecidableEq, Repr

namespace PhrChunkedDecoder

def zero (consumeTrailer : Bool) : PhrChunkedDecoder := ⟨0, consumeTrailer, 0, .inChunkSize⟩

end PhrChunkedDecoder

namespace Pico

/-- The number of values of a `size_t`. -/
abbrev sizeValues : ℕ := 2 ^ 64

/-- `sizeof(size_t) * 2`. -/
abbrev maxHexCount : ℕ := 16

/-- `decode_hex`. -/
def decodeHex (ch : Byte) : ℤ :=
  if 48 ≤ ch && ch ≤ 57 then ch.toNat - 48
  else if 65 ≤ ch && ch ≤ 70 then ch.toNat - 65 + 10
  else if 97 ≤ ch && ch ≤ 102 then ch.toNat - 97 + 10
  else -1

/-- The variables of `phr_decode_chunked`. -/
structure DecodeRun where
  decoder : PhrChunkedDecoder
  buf : Mem Byte
  dst : ℕ
  src : ℕ

/-- How a step ends: `goto Exit` with `ret`, or `goto Complete`, or neither. -/
inductive DecodeStep where
  | goOn (s : DecodeRun)
  | exit (ret : ℤ) (s : DecodeRun)
  | complete (s : DecodeRun)

namespace DecodeRun

def advance (s : DecodeRun) : DecodeRun := { s with src := s.src + 1 }

def setState (s : DecodeRun) (state : ChunkedState) : DecodeRun :=
  { s with decoder := { s.decoder with state := state } }

/-- `memmove(buf + dst, buf + src, n)` unless the two are the same, and both
cursors behind the `n` bytes. -/
def moveData (s : DecodeRun) (n : ℕ) : DecodeRun :=
  { s with
    buf := if s.dst ≠ s.src then move s.buf s.dst s.src n else s.buf
    dst := s.dst + n
    src := s.src + n }

end DecodeRun

/-- `CHUNKED_IN_CHUNK_SIZE`. -/
def chunkSizeStep (bufsz : ℕ) (s : DecodeRun) : DecodeStep :=
  if s.src = bufsz then .exit (-2) s
  else
    let v := decodeHex (s.buf s.src)
    if v = -1 then
      if s.decoder.hexCount = 0 then .exit (-1) s
      else .goOn { s with decoder := { s.decoder with hexCount := 0, state := .inChunkExt } }
    else if s.decoder.hexCount = maxHexCount then .exit (-1) s
    else .goOn { s with
      decoder := { s.decoder with
        bytesLeftInChunk := (s.decoder.bytesLeftInChunk * 16 + v.toNat) % sizeValues
        hexCount := s.decoder.hexCount + 1 }
      src := s.src + 1 }

/-- `CHUNKED_IN_CHUNK_EXT`. -/
def chunkExtStep (bufsz : ℕ) (s : DecodeRun) : DecodeStep :=
  if s.src = bufsz then .exit (-2) s
  else if s.buf s.src = 10 then
    if s.decoder.bytesLeftInChunk = 0 then
      if s.decoder.consumeTrailer then .goOn (s.advance.setState .inTrailersLineHead)
      else .complete s.advance
    else .goOn (s.advance.setState .inChunkData)
  else .goOn s.advance

/-- `CHUNKED_IN_CHUNK_DATA`. -/
def chunkDataStep (bufsz : ℕ) (s : DecodeRun) : DecodeStep :=
  let avail := bufsz - s.src
  if avail < s.decoder.bytesLeftInChunk then
    .exit (-2) { s.moveData avail with
      decoder := { s.decoder with bytesLeftInChunk := s.decoder.bytesLeftInChunk - avail } }
  else
    .goOn { s.moveData s.decoder.bytesLeftInChunk with
      decoder := { s.decoder with bytesLeftInChunk := 0, state := .inChunkCrlf } }

/-- `CHUNKED_IN_CHUNK_CRLF`. -/
def chunkCrlfStep (bufsz : ℕ) (s : DecodeRun) : DecodeStep :=
  if s.src = bufsz then .exit (-2) s
  else if s.buf s.src = 13 then .goOn s.advance
  else if s.buf s.src ≠ 10 then .exit (-1) s
  else .goOn (s.advance.setState .inChunkSize)

/-- `CHUNKED_IN_TRAILERS_LINE_HEAD`. -/
def trailersLineHeadStep (bufsz : ℕ) (s : DecodeRun) : DecodeStep :=
  if s.src = bufsz then .exit (-2) s
  else if s.buf s.src = 13 then .goOn s.advance
  else if s.buf s.src = 10 then .complete s.advance
  else .goOn (s.advance.setState .inTrailersLineMiddle)

/-- `CHUNKED_IN_TRAILERS_LINE_MIDDLE`. -/
def trailersLineMiddleStep (bufsz : ℕ) (s : DecodeRun) : DecodeStep :=
  if s.src = bufsz then .exit (-2) s
  else if s.buf s.src = 10 then .goOn (s.advance.setState .inTrailersLineHead)
  else .goOn s.advance

/-- The `switch`. -/
def decodeStep (bufsz : ℕ) (s : DecodeRun) : DecodeStep :=
  match s.decoder.state with
  | .inChunkSize => chunkSizeStep bufsz s
  | .inChunkExt => chunkExtStep bufsz s
  | .inChunkData => chunkDataStep bufsz s
  | .inChunkCrlf => chunkCrlfStep bufsz s
  | .inTrailersLineHead => trailersLineHeadStep bufsz s
  | .inTrailersLineMiddle => trailersLineMiddleStep bufsz s

/-- The loop, with the value that is returned; `none` when `fuel` was not enough. -/
def decodeLoop (bufsz : ℕ) : ℕ → DecodeRun → Option (ℤ × DecodeRun)
  | 0, _ => none
  | fuel + 1, s =>
      match decodeStep bufsz s with
      | .goOn s' => decodeLoop bufsz fuel s'
      | .exit ret s' => some (ret, s')
      | .complete s' => some ((bufsz : ℤ) - s'.src, s')

/-- What a call leaves behind: the decoder, the buffer, and `*bufsz`. -/
structure DecodeResult where
  ret : ℤ
  decoder : PhrChunkedDecoder
  buf : Mem Byte
  bufsz : ℕ

end Pico

open Pico

/-- `phr_decode_chunked`. No two steps in a row leave the cursor where it is. -/
def phrDecodeChunked (decoder : PhrChunkedDecoder) (buf : Mem Byte) (bufsz : ℕ) :
    Option DecodeResult :=
  (decodeLoop bufsz (2 * bufsz + 2) ⟨decoder, buf, 0, 0⟩).map fun r =>
    { ret := r.1
      decoder := r.2.decoder
      buf := if r.2.dst ≠ r.2.src then move r.2.buf r.2.dst r.2.src ((bufsz : ℤ) - r.2.src)
        else r.2.buf
      bufsz := r.2.dst }

/-- `phr_decode_chunked_is_in_data`. -/
def phrDecodeChunkedIsInData (decoder : PhrChunkedDecoder) : Bool :=
  decoder.state = .inChunkData

end Zroxy
