import Mathlib.Data.List.TakeWhile
import Zroxy.Parsers.TextParsing

/-!
# What the parsers accept

`phr_parse_request`, `phr_parse_response` and `phr_parse_headers` accept an
input exactly if it begins with the text of a message, and what they return is
the description of that text, whatever follows it.
-/

namespace Zroxy

open Pico Runs

namespace Pico

variable {buf rest : List Byte}

/-! ## Requests -/

theorem skipEmptyLine_ok (h : skipEmptyLine buf = .ok rest) :
    ∃ e : Option LineEnd, buf = (e.map LineEnd.bytes).getD [] ++ rest := by
  cases buf with
  | nil => cases h
  | cons c buf =>
      rw [skipEmptyLine] at h
      split at h
      · rw [expectChar_ok_iff.mp h, eq_of_beq ‹(c == 13) = true›]
        exact ⟨some .crlf, rfl⟩
      · split at h
        · cases h
          rw [eq_of_beq ‹(c == 10) = true›]
          exact ⟨some .lf, rfl⟩
        · cases h
          exact ⟨none, rfl⟩

theorem skipEmptyLine_front (e : Option LineEnd) (method : Token) (rest : List Byte) :
    skipEmptyLine ((e.map LineEnd.bytes).getD [] ++ (method.bytes ++ rest)) =
      .ok (method.bytes ++ rest) := by
  cases e with
  | some e => cases e <;> rfl
  | none =>
      obtain ⟨c, tail, hmethod, hc, -⟩ := method.exists_cons
      have hcr : c ≠ 13 := ne_of_tokenChar hc (by decide)
      have hlf : c ≠ 10 := ne_of_tokenChar hc (by decide)
      simp [hmethod, skipEmptyLine, hcr, hlf]

theorem spaces_append (n : ℕ) (rest : List Byte) :
    spaces n ++ rest = 32 :: (List.replicate n 32 ++ rest) := rfl

theorem Path.exists_cons (p : Path) : ∃ c tail, p.bytes = c :: tail ∧ c ≠ 32 := by
  obtain ⟨c, tail, hpath⟩ := List.exists_cons_of_ne_nil p.ne_nil
  have hc := (p.chars c (by rw [hpath]; exact List.mem_cons_self)).1
  exact ⟨c, tail, hpath, fun h => by rw [h] at hc; exact absurd hc (by decide)⟩

theorem advanceToken_path (p : Path) (n : ℕ) (rest : List Byte) :
    advanceToken (p.bytes ++ (spaces n ++ rest)) = .ok (spaces n ++ rest) :=
  advanceToken_ok_iff.mpr ⟨p.bytes, _, rfl, p.chars, spaces_append n rest⟩

theorem skipWhile_gap {n : ℕ} {rest : List Byte} (h : ∃ c ∈ rest.head?, c ≠ 32) :
    skipWhile (· == 32) (spaces n ++ rest).tail = .ok rest :=
  skipWhile_space_ok_iff.mpr ⟨n, rfl, h⟩

end Pico

/-- **A request is read**, whatever follows it. -/
theorem phrParseRequest_render {maxHeaders : ℕ} (t : RequestText maxHeaders) (rest : List Byte) :
    phrParseRequest (t.render ++ rest) maxHeaders = .ok t.locate := by
  obtain ⟨lines, hlines⟩ : ∃ lines, lines = t.headers.render ++ rest := ⟨_, rfl⟩
  obtain ⟨version, hversion⟩ :
      ∃ version, version = versionText t.minorVersion ++ (t.eol.bytes ++ lines) := ⟨_, rfl⟩
  obtain ⟨path, hpath⟩ : ∃ path, path = t.path.bytes ++ (spaces t.gap' ++ version) := ⟨_, rfl⟩
  obtain ⟨method, hmethod⟩ :
      ∃ method, method = t.method.bytes ++ (spaces t.gap ++ path) := ⟨_, rfl⟩
  have hrender : t.render ++ rest = t.front ++ method := by
    simp [RequestText.render, RequestText.requestLine, hmethod, hpath, hversion, hlines]
  have hskip : skipEmptyLine (t.render ++ rest) = .ok method := by
    rw [hrender, hmethod]
    exact skipEmptyLine_front t.emptyLine t.method _
  have hname : parseToken 32 method = .ok (spaces t.gap ++ path) :=
    (parseToken_ok_iff (by decide)).mpr ⟨_, _, hmethod, t.method.chars, spaces_append _ _⟩
  have hgap : skipWhile (· == 32) (spaces t.gap ++ path).tail = .ok path := by
    obtain ⟨c, tail, hc, hne⟩ := t.path.exists_cons
    exact skipWhile_gap ⟨c, by rw [hpath, hc]; rfl, hne⟩
  have htarget : advanceToken path = .ok (spaces t.gap' ++ version) := by
    rw [hpath]
    exact advanceToken_path t.path t.gap' version
  have hgap' : skipWhile (· == 32) (spaces t.gap' ++ version).tail = .ok version :=
    skipWhile_gap ⟨72, by rw [hversion]; rfl, by decide⟩
  have hminor : parseHttpVersion version = .ok (t.minorVersion.val, t.eol.bytes ++ lines) :=
    parseHttpVersion_ok_iff.mpr ⟨_, hversion, rfl, by cases t.eol <;> simp [LineEnd.bytes]⟩
  have hend : expectLineEnd (t.eol.bytes ++ lines) = .ok lines :=
    expectLineEnd_ok_iff.mpr ⟨t.eol, rfl⟩
  have htable := (parseHeaders_ok_iff (t.render ++ rest).length).mpr ⟨t.headers, hlines, rfl⟩
  have hmethodLen := congrArg List.length hmethod
  have hpathLen := congrArg List.length hpath
  have hversionLen := congrArg List.length hversion
  have hrenderLen := congrArg List.length hrender
  have hlinesLen := congrArg List.length hlines
  have htext : t.render.length =
      t.front.length + t.requestLine.length + t.headers.render.length := by
    simp [RequestText.render, Nat.add_assoc]
  simp only [List.length_append, spaces, List.length_replicate] at hmethodLen hpathLen
  simp only [List.length_append] at hversionLen hrenderLen hlinesLen
  have hmethodPos := List.length_pos_iff.mpr t.method.ne_nil
  have hpathPos := List.length_pos_iff.mpr t.path.ne_nil
  have hnonempty : ¬ ((spaces t.gap ++ path).length = method.length ∨
      (spaces t.gap' ++ version).length = path.length) := by
    simp only [List.length_append, spaces, List.length_replicate]
    omega
  simp only [phrParseRequest, parseRequest, hskip, Except.bind, hname, hgap, htarget, hgap',
    if_neg hnonempty, hminor, hend, htable, RequestText.locate]
  simp only [Except.ok.injEq, PhrRequest.mk.injEq, true_and]
  simp only [List.length_append, spaces, List.length_replicate]
  refine ⟨by omega, by omega, by omega, by omega, by omega, ?_⟩
  congr 1
  omega

theorem exists_requestText {buf : List Byte} {maxHeaders : ℕ} {r : PhrRequest}
    (hok : phrParseRequest buf maxHeaders = .ok r) :
    ∃ t : RequestText maxHeaders, ∃ rest, buf = t.render ++ rest := by
  obtain ⟨method, hskip, hok⟩ := bind_ok hok
  obtain ⟨methodEnd, hname, hok⟩ := bind_ok hok
  obtain ⟨path, hgap, hok⟩ := bind_ok hok
  obtain ⟨pathEnd, htarget, hok⟩ := bind_ok hok
  obtain ⟨version, hgap', hok⟩ := bind_ok hok
  split at hok
  · cases hok
  · rename_i hnonempty
    obtain ⟨⟨minor, eol⟩, hminor, hok⟩ := bind_ok hok
    obtain ⟨lines, hend, hok⟩ := bind_ok hok
    obtain ⟨⟨hs, rest⟩, htable, -⟩ := bind_ok hok
    obtain ⟨emptyLine, rfl⟩ := skipEmptyLine_ok hskip
    obtain ⟨name, nameTail, rfl, hchars, rfl⟩ := (parseToken_ok_iff (by decide)).mp hname
    obtain ⟨target, targetTail, rfl, htargetChars, rfl⟩ := advanceToken_ok_iff.mp htarget
    obtain ⟨gap, rfl, -⟩ := skipWhile_space_ok_iff.mp hgap
    obtain ⟨gap', rfl, -⟩ := skipWhile_space_ok_iff.mp hgap'
    obtain ⟨d, rfl, -, -⟩ := parseHttpVersion_ok_iff.mp hminor
    obtain ⟨e, rfl⟩ := expectLineEnd_ok_iff.mp hend
    obtain ⟨headers, rfl, -⟩ := (parseHeaders_ok_iff _).mp htable
    rw [not_or] at hnonempty
    refine ⟨{
      emptyLine := emptyLine
      method := ⟨name, ?_, hchars⟩
      gap := gap
      path := ⟨target, ?_, htargetChars⟩
      gap' := gap'
      minorVersion := d
      eol := e
      headers := headers }, rest, ?_⟩
    · rintro rfl
      exact hnonempty.1 rfl
    · rintro rfl
      exact hnonempty.2 rfl
    · simp [RequestText.render, RequestText.front, RequestText.requestLine, spaces,
        List.replicate_succ]

/-- **What `phr_parse_request` accepts**: the inputs that begin with a request,
and what it returns describes that request, whatever follows it. -/
theorem phrParseRequest_ok_iff (buf : List Byte) (maxHeaders : ℕ) (r : PhrRequest) :
    phrParseRequest buf maxHeaders = .ok r ↔
      ∃ t : RequestText maxHeaders, ∃ rest, buf = t.render ++ rest ∧ r = t.locate := by
  constructor
  · intro hok
    obtain ⟨t, rest, rfl⟩ := exists_requestText hok
    rw [phrParseRequest_render] at hok
    cases hok
    exact ⟨t, rest, rfl, rfl⟩
  · rintro ⟨t, rest, rfl, rfl⟩
    exact phrParseRequest_render t rest

/-! ## Responses -/

namespace Pico

/-- **The message of a response** begins behind the spaces in front of it. -/
theorem trimMessage_reason {maxHeaders : ℕ} (t : ResponseText maxHeaders) (rest : List Byte) :
    trimMessage t.reason.length (t.reason ++ (t.eol.bytes ++ rest)) =
      .ok (t.gap', t.msg.length) := by
  have hstop : ∃ c ∈ (t.msg ++ (t.eol.bytes ++ rest)).head?, c ≠ 32 := by
    cases hmsg : t.msg with
    | nil =>
        cases t.eol with
        | crlf => exact ⟨13, rfl, by decide⟩
        | lf => exact ⟨10, rfl, by decide⟩
    | cons c tail =>
        refine ⟨c, rfl, fun hc => t.start ?_⟩
        rw [hmsg, hc]
        rfl
  have htake : ((t.reason ++ (t.eol.bytes ++ rest)).takeWhile (· == 32)).length = t.gap' := by
    obtain ⟨c, hc, hne⟩ := hstop
    obtain ⟨tail, htail⟩ := List.head?_eq_some_iff.mp hc
    rw [ResponseText.reason, List.append_assoc, htail,
      List.takeWhile_append_of_pos (fun d hd => by simp [List.eq_of_mem_replicate hd])]
    simp [hne]
  rw [trimMessage]
  cases hgap : t.gap' with
  | zero =>
      have hmsg := t.spaced hgap
      rw [if_pos (by simp [ResponseText.reason, hgap, hmsg]), hmsg]
      rfl
  | succ n =>
      have hlength : t.reason.length = n + 1 + t.msg.length := by
        simp [ResponseText.reason, hgap]
      rw [if_neg (by omega), if_pos (by simp [ResponseText.reason, hgap, List.replicate_succ])]
      simp only [htake, hgap, hlength, Nat.add_sub_cancel_left]

theorem exists_reason {token : List Byte} {r : ℕ × ℕ} {buf : List Byte}
    (h : trimMessage token.length (token ++ buf) = .ok r) :
    ∃ gap msg, token = List.replicate gap 32 ++ msg ∧ msg.head? ≠ some 32 ∧
      (gap = 0 → msg = []) := by
  refine ⟨(token.takeWhile (· == 32)).length, token.dropWhile (· == 32), ?_, ?_, ?_⟩
  · have hspaces : token.takeWhile (· == 32) =
        List.replicate (token.takeWhile (· == 32)).length 32 :=
      List.eq_replicate_length.mpr fun c hc => by simpa using List.mem_takeWhile_imp hc
    rw [← hspaces, List.takeWhile_append_dropWhile]
  · intro hhead
    have hnot := List.head?_dropWhile_not (· == (32 : Byte)) token
    rw [hhead] at hnot
    simp at hnot
  · intro hgap
    cases token with
    | nil => rfl
    | cons c token =>
        rw [trimMessage, if_neg (by simp)] at h
        split at h
        · rename_i hhead
          have hc : c = 32 := by simpa using hhead
          simp [hc] at hgap
        · cases h

end Pico

/-- **A response is read**, whatever follows it. -/
theorem parseResponse_render {maxHeaders : ℕ} (t : ResponseText maxHeaders) (rest : List Byte) :
    parseResponse (t.render ++ rest).length maxHeaders (t.render ++ rest) = .ok t.locate := by
  obtain ⟨lines, hlines⟩ : ∃ lines, lines = t.headers.render ++ rest := ⟨_, rfl⟩
  obtain ⟨line, hline⟩ : ∃ line, line = t.reason ++ (t.eol.bytes ++ lines) := ⟨_, rfl⟩
  obtain ⟨code, hcode⟩ : ∃ code, code = t.codeText ++ line := ⟨_, rfl⟩
  have hrender : t.render ++ rest = versionText t.minorVersion ++ (spaces t.gap ++ code) := by
    simp [ResponseText.render, ResponseText.statusLine, hcode, hline, hlines]
  have hminor : parseHttpVersion (t.render ++ rest) =
      .ok (t.minorVersion.val, spaces t.gap ++ code) :=
    parseHttpVersion_ok_iff.mpr ⟨_, hrender, rfl, by simp [spaces]⟩
  have hgap : skipSpaces (spaces t.gap ++ code) = .ok code := by
    refine skipSpaces_ok_iff.mpr ⟨t.gap, rfl, digit t.hundreds, by rw [hcode]; rfl, fun h => ?_⟩
    have hnat := congrArg UInt8.toNat h
    rw [toNat_digit] at hnat
    exact absurd hnat (by simp; omega)
  have hstatus : parseInt3 code =
      .ok (100 * t.hundreds.val + 10 * t.tens.val + t.ones.val, line) :=
    parseInt3_ok_iff.mpr ⟨_, _, _, hcode, rfl⟩
  have hplain : ∀ c ∈ t.reason, isControl c = false := by
    rw [ResponseText.reason, List.forall_mem_append]
    exact ⟨fun c hc => by rw [List.eq_of_mem_replicate hc]; rfl, t.plain⟩
  have htoken : getTokenToEol line = .ok (t.reason.length, lines) :=
    getTokenToEol_ok_iff.mpr ⟨_, _, hline, hplain, rfl⟩
  have hmsg : trimMessage t.reason.length line = .ok (t.gap', t.msg.length) := by
    rw [hline]
    exact trimMessage_reason t lines
  have htable := (parseHeaders_ok_iff (t.render ++ rest).length).mpr ⟨t.headers, hlines, rfl⟩
  have hlineLen := congrArg List.length hline
  have hcodeLen := congrArg List.length hcode
  have hrenderLen := congrArg List.length hrender
  have hlinesLen := congrArg List.length hlines
  have htext : t.render.length = t.statusLine.length + t.headers.render.length := by
    simp [ResponseText.render]
  simp only [List.length_append] at hlineLen hlinesLen
  simp only [List.length_append, spaces, List.length_replicate, ResponseText.codeText, versionText,
    List.length_cons, List.length_nil] at hcodeLen hrenderLen
  have hpos : 0 < t.eol.bytes.length := by cases t.eol <;> exact Nat.succ_pos _
  simp only [parseResponse, hminor, Except.bind, hgap, hstatus, htoken, hmsg, htable,
    ResponseText.locate]
  rw [if_neg (by omega)]
  simp only [Except.ok.injEq, PhrResponse.mk.injEq, true_and]
  simp only [List.length_append]
  refine ⟨by omega, by omega, ?_⟩
  congr 1
  omega

theorem exists_responseText {len maxHeaders : ℕ} {buf : List Byte} {r : PhrResponse}
    (hok : parseResponse len maxHeaders buf = .ok r) :
    ∃ t : ResponseText maxHeaders, ∃ rest, buf = t.render ++ rest := by
  obtain ⟨⟨minor, gapped⟩, hminor, hok⟩ := bind_ok hok
  obtain ⟨code, hgap, hok⟩ := bind_ok hok
  split at hok
  · cases hok
  · obtain ⟨⟨status, line⟩, hstatus, hok⟩ := bind_ok hok
    obtain ⟨⟨len', lines⟩, htoken, hok⟩ := bind_ok hok
    obtain ⟨m, hmsg, hok⟩ := bind_ok hok
    obtain ⟨⟨hs, rest⟩, htable, -⟩ := bind_ok hok
    obtain ⟨d, rfl, -, -⟩ := parseHttpVersion_ok_iff.mp hminor
    obtain ⟨gap, rfl, -⟩ := skipSpaces_ok_iff.mp hgap
    obtain ⟨a, b, c, rfl, -⟩ := parseInt3_ok_iff.mp hstatus
    obtain ⟨token, e, rfl, hplain, rfl⟩ := getTokenToEol_ok_iff.mp htoken
    obtain ⟨gap', msg, rfl, hstart, hspaced⟩ := exists_reason hmsg
    obtain ⟨headers, rfl, -⟩ := (parseHeaders_ok_iff _).mp htable
    rw [List.forall_mem_append] at hplain
    refine ⟨{
      minorVersion := d
      gap := gap
      hundreds := a
      tens := b
      ones := c
      gap' := gap'
      msg := msg
      plain := hplain.2
      start := hstart
      spaced := hspaced
      eol := e
      headers := headers }, rest, ?_⟩
    simp [ResponseText.render, ResponseText.statusLine, ResponseText.codeText,
      ResponseText.reason]

/-- **What `phr_parse_response` accepts**: the inputs that begin with a response,
and what it returns describes that response, whatever follows it. -/
theorem phrParseResponse_ok_iff (buf : List Byte) (maxHeaders : ℕ) (r : PhrResponse) :
    phrParseResponse buf maxHeaders 0 = .ok r ↔
      ∃ t : ResponseText maxHeaders, ∃ rest, buf = t.render ++ rest ∧ r = t.locate := by
  have hfirst : phrParseResponse buf maxHeaders 0 = parseResponse buf.length maxHeaders buf := rfl
  rw [hfirst]
  constructor
  · intro hok
    obtain ⟨t, rest, rfl⟩ := exists_responseText hok
    rw [parseResponse_render] at hok
    cases hok
    exact ⟨t, rest, rfl, rfl⟩
  · rintro ⟨t, rest, rfl, rfl⟩
    exact parseResponse_render t rest

/-! ## Header blocks -/

/-- **What `phr_parse_headers` accepts**: the inputs that begin with header lines
and an empty line. -/
theorem phrParseHeaders_ok_iff (buf : List Byte) (maxHeaders : ℕ) (r : ℤ × List PhrHeader) :
    phrParseHeaders buf maxHeaders 0 = .ok r ↔
      ∃ t : HeadersText maxHeaders, ∃ rest, buf = t.render ++ rest ∧
        r = ((t.render.length : ℤ), t.locate 0) := by
  have hfirst : phrParseHeaders buf maxHeaders 0 =
      (parseHeaders buf.length maxHeaders buf.length 0 buf).bind fun h =>
        .ok ((buf.length : ℤ) - h.2.length, h.1) := rfl
  rw [hfirst]
  constructor
  · intro hok
    obtain ⟨⟨hs, rest⟩, htable, hok⟩ := bind_ok hok
    cases hok
    obtain ⟨t, rfl, rfl⟩ := (parseHeaders_ok_iff _).mp htable
    exact ⟨t, rest, rfl, by simp⟩
  · rintro ⟨t, rest, rfl, rfl⟩
    have htable : parseHeaders (t.render ++ rest).length maxHeaders (t.render ++ rest).length 0
        (t.render ++ rest) = .ok (t.locate 0, rest) :=
      (parseHeaders_ok_iff _).mpr ⟨t, rfl, by simp⟩
    rw [htable]
    simp [Except.bind]

end Zroxy
