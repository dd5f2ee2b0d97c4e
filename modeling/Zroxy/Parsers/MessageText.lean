import Zroxy.Parsers.PicoHttpParser

/-!
# What a message is

The texts that the parser is meant for: header lines, folded lines, and the
request and status lines in front of them, each with what makes it well formed
as fields. `render` writes a text, and `locate` is the table that describes it
where it is written.
-/

namespace Zroxy

namespace Pico

/-! ## Parts -/

/-- CRLF or LF. -/
inductive LineEnd where
  | crlf
  | lf
deriving DecidableEq, Repr

def LineEnd.bytes : LineEnd → List Byte
  | .crlf => [13, 10]
  | .lf => [10]

/-- A token has at least one character. -/
structure Token where
  bytes : List Byte
  ne_nil : bytes ≠ []
  chars : ∀ c ∈ bytes, tokenChar c = true

/-- The path of a request: anything but blanks and control characters. -/
structure Path where
  bytes : List Byte
  ne_nil : bytes ≠ []
  chars : ∀ c ∈ bytes, 32 < c ∧ c ≠ 127

/-- `n + 1` spaces. -/
def spaces (n : ℕ) : List Byte := List.replicate (n + 1) 32

def digit (d : Fin 10) : Byte := 48 + UInt8.ofNat d

/-- `HTTP/1.` and the minor version. -/
def versionText (minor : Fin 10) : List Byte := [72, 84, 84, 80, 47, 49, 46, digit minor]

/-- What stands on a line in front of its end: a value, and blanks behind it
that do not belong to it. -/
structure Content where
  value : List Byte
  trailing : List Byte
  plain : ∀ c ∈ value, isControl c = false
  trimmed : ∀ c ∈ value.getLast?, isBlank c = false
  blank : ∀ c ∈ trailing, isBlank c = true

def Content.bytes (t : Content) : List Byte := t.value ++ t.trailing

/-! ## Header lines -/

/-- A header line, or a line that continues the one before it. -/
inductive HeaderText where
  | field (name : Token) (blanks : List Byte) (content : Content) (eol : LineEnd)
      (blank : ∀ c ∈ blanks, isBlank c = true)
      (start : ∀ c ∈ content.bytes.head?, isBlank c = false)
  | fold (content : Content) (eol : LineEnd) (start : ∃ c ∈ content.bytes.head?, isBlank c = true)

namespace HeaderText

def IsField : HeaderText → Prop
  | .field .. => True
  | .fold .. => False

def render : HeaderText → List Byte
  | .field name blanks content eol _ _ =>
      name.bytes ++ 58 :: (blanks ++ (content.bytes ++ eol.bytes))
  | .fold content eol _ => content.bytes ++ eol.bytes

/-- The entry of the table for a line at `off`. -/
def locate (off : ℤ) : HeaderText → PhrHeader
  | .field name blanks content _ _ _ =>
      { name := some off
        nameLen := name.bytes.length
        value := off + name.bytes.length + 1 + blanks.length
        valueLen := content.value.length }
  | .fold content _ _ =>
      { name := none
        nameLen := 0
        value := off
        valueLen := content.value.length }

def renderLines (lines : List HeaderText) : List Byte := lines.flatMap render

def locateLines : ℤ → List HeaderText → List PhrHeader
  | _, [] => []
  | off, line :: lines => line.locate off :: locateLines (off + line.render.length) lines

@[simp] theorem renderLines_nil : renderLines [] = [] := rfl

@[simp] theorem renderLines_cons (line : HeaderText) (lines : List HeaderText) :
    renderLines (line :: lines) = line.render ++ renderLines lines := rfl

end HeaderText

/-- The header lines of a message and the empty line behind them. -/
structure HeadersText (maxHeaders : ℕ) where
  lines : List HeaderText
  first : ∀ line ∈ lines.head?, line.IsField
  fits : lines.length ≤ maxHeaders
  last : LineEnd

namespace HeadersText

variable {maxHeaders : ℕ}

def render (t : HeadersText maxHeaders) : List Byte :=
  HeaderText.renderLines t.lines ++ t.last.bytes

def locate (off : ℤ) (t : HeadersText maxHeaders) : List PhrHeader :=
  HeaderText.locateLines off t.lines

end HeadersText

end Pico

open Pico

/-! ## Messages -/

/-- A request; `gap` and `gap'` are the spaces beyond the first one. -/
structure RequestText (maxHeaders : ℕ) where
  emptyLine : Option LineEnd
  method : Token
  gap : ℕ
  path : Path
  gap' : ℕ
  minorVersion : Fin 10
  eol : LineEnd
  headers : HeadersText maxHeaders

namespace RequestText

variable {maxHeaders : ℕ}

/-- The empty line that some clients leave in front of a request. -/
def front (t : RequestText maxHeaders) : List Byte := (t.emptyLine.map LineEnd.bytes).getD []

def requestLine (t : RequestText maxHeaders) : List Byte :=
  t.method.bytes ++ (spaces t.gap ++ (t.path.bytes ++ (spaces t.gap' ++
    (versionText t.minorVersion ++ t.eol.bytes))))

def render (t : RequestText maxHeaders) : List Byte :=
  t.front ++ (t.requestLine ++ t.headers.render)

def locate (t : RequestText maxHeaders) : PhrRequest where
  consumed := t.render.length
  method := t.front.length
  methodLen := t.method.bytes.length
  path := t.front.length + t.method.bytes.length + (t.gap + 1)
  pathLen := t.path.bytes.length
  minorVersion := t.minorVersion.val
  headers := t.headers.locate (t.front.length + t.requestLine.length)

end RequestText

/-- A response. `gap'` counts the spaces in front of the message, and there is
no message without one. -/
structure ResponseText (maxHeaders : ℕ) where
  minorVersion : Fin 10
  gap : ℕ
  hundreds : Fin 10
  tens : Fin 10
  ones : Fin 10
  gap' : ℕ
  msg : List Byte
  plain : ∀ c ∈ msg, isControl c = false
  start : msg.head? ≠ some 32
  spaced : gap' = 0 → msg = []
  eol : LineEnd
  headers : HeadersText maxHeaders

namespace ResponseText

variable {maxHeaders : ℕ}

def codeText (t : ResponseText maxHeaders) : List Byte :=
  [digit t.hundreds, digit t.tens, digit t.ones]

/-- What stands between the status code and the end of the line. -/
def reason (t : ResponseText maxHeaders) : List Byte := List.replicate t.gap' 32 ++ t.msg

def statusLine (t : ResponseText maxHeaders) : List Byte :=
  versionText t.minorVersion ++ (spaces t.gap ++ (t.codeText ++ (t.reason ++ t.eol.bytes)))

def render (t : ResponseText maxHeaders) : List Byte := t.statusLine ++ t.headers.render

def locate (t : ResponseText maxHeaders) : PhrResponse where
  consumed := t.render.length
  minorVersion := t.minorVersion.val
  status := 100 * t.hundreds.val + 10 * t.tens.val + t.ones.val
  msg := 8 + (t.gap + 1) + 3 + t.gap'
  msgLen := t.msg.length
  headers := t.headers.locate t.statusLine.length

end ResponseText

end Zroxy
