import Zroxy.Parsers.ChunkedDecoder

/-!
# What a chunked body is

The texts that the decoder is meant for, with what makes them well formed as
fields. The decoder is generous: any number of CRs may stand in front of the LF
behind the chunk data, and an extension is anything without an LF that does not
look like one more digit.
-/

namespace Zroxy

namespace Pico

/-- The number that hexadecimal digits stand for, behind those of `n`. -/
def hexValue (n : ℕ) (digits : List Byte) : ℕ :=
  digits.foldl (fun n c => n * 16 + (decodeHex c).toNat) n

structure SizeLine where
  digits : List Byte
  ne_nil : digits ≠ []
  hex : ∀ c ∈ digits, decodeHex c ≠ -1
  fits : digits.length ≤ maxHexCount
  ext : List Byte
  noLf : ∀ c ∈ ext, c ≠ 10
  start : ∀ c ∈ ext.head?, decodeHex c = -1

namespace SizeLine

def size (t : SizeLine) : ℕ := hexValue 0 t.digits

def bytes (t : SizeLine) : List Byte := t.digits ++ (t.ext ++ [10])

end SizeLine

structure ChunkText where
  line : SizeLine
  data : List Byte
  ne_nil : data ≠ []
  length_data : data.length = line.size
  crs : ℕ

def ChunkText.bytes (t : ChunkText) : List Byte :=
  t.line.bytes ++ (t.data ++ (List.replicate t.crs 13 ++ [10]))

structure TrailerLine where
  crs : ℕ
  first : Byte
  ne_cr : first ≠ 13
  ne_lf : first ≠ 10
  content : List Byte
  noLf : ∀ c ∈ content, c ≠ 10

def TrailerLine.bytes (t : TrailerLine) : List Byte :=
  List.replicate t.crs 13 ++ t.first :: (t.content ++ [10])

/-- The trailer, with the empty line at its end. -/
structure TrailerText where
  lines : List TrailerLine
  crs : ℕ

def TrailerText.bytes (t : TrailerText) : List Byte :=
  t.lines.flatMap TrailerLine.bytes ++ (List.replicate t.crs 13 ++ [10])

end Pico

open Pico

/-- A body, up to the line of the last chunk, or up to the end of the trailer
when that is to be consumed. -/
structure ChunkedText (consumeTrailer : Bool) where
  chunks : List ChunkText
  last : SizeLine
  size_last : last.size = 0
  trailer : Option TrailerText
  consumed : trailer.isSome = consumeTrailer

namespace ChunkedText

variable {consumeTrailer : Bool}

def render (t : ChunkedText consumeTrailer) : List Byte :=
  t.chunks.flatMap ChunkText.bytes ++ (t.last.bytes ++ (t.trailer.map TrailerText.bytes).getD [])

def payload (t : ChunkedText consumeTrailer) : List Byte := t.chunks.flatMap ChunkText.data

end ChunkedText

end Zroxy
