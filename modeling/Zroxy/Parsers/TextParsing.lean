import Mathlib.Data.List.Induction
import Zroxy.Lib.Incremental
import Zroxy.Parsers.MessageText

/-!
# Parsing the parts of a message

For each part of a message, what the parser does with its text, whatever
follows, and conversely that it accepts nothing else.
-/

namespace Zroxy

open Incremental Runs

namespace Pico

variable {buf rest : List Byte}

/-! ## Characters -/

theorem isBlank_iff {c : Byte} : isBlank c = true ↔ c = 32 ∨ c = 9 := by
  simp [isBlank]

theorem isControl_of_isBlank {c : Byte} (h : isBlank c = true) : isControl c = false := by
  rcases isBlank_iff.mp h with rfl | rfl <;> decide

theorem tokenChar_of_isBlank {c : Byte} (h : isBlank c = true) : tokenChar c = false := by
  rcases isBlank_iff.mp h with rfl | rfl <;> decide

theorem ne_of_tokenChar {c d : Byte} (hc : tokenChar c = true) (hd : tokenChar d = false) :
    c ≠ d := by
  rintro rfl
  rw [hc] at hd
  cases hd

/-! ## Scanners -/

theorem parseToken_eq_scan (next : Byte) (buf : List Byte) :
    parseToken next buf =
      scan partialRequest parseError (· == next) (fun c => !tokenChar c) buf := by
  induction buf with
  | nil => rfl
  | cons c buf ih => rw [parseToken, scan, ih]

theorem advanceToken_eq_scan (buf : List Byte) :
    advanceToken buf = scan partialRequest parseError (· == 32)
      (fun c => !isPrintableAscii c && (c < 32 || c == 127)) buf := by
  induction buf with
  | nil => rfl
  | cons c buf ih => rw [advanceToken, scan, ih]

theorem skipWhile_eq_scan (p : Byte → Bool) (buf : List Byte) :
    skipWhile p buf = scan partialRequest parseError (fun c => !p c) (fun _ => false) buf := by
  induction buf with
  | nil => rfl
  | cons c buf ih =>
      rw [skipWhile, scan, ih]
      cases p c <;> rfl

/-- **A token** is what stands in front of a byte that is none. -/
theorem parseToken_ok_iff {next : Byte} (hnext : tokenChar next = false) :
    parseToken next buf = .ok rest ↔
      ∃ token tail, buf = token ++ rest ∧ (∀ c ∈ token, tokenChar c = true) ∧
        rest = next :: tail := by
  rw [parseToken_eq_scan, scan_ok_iff]
  constructor
  · rintro ⟨token, rfl, htoken, c, hc, hstop⟩
    cases rest with
    | nil => cases hc
    | cons d tail =>
        cases hc
        exact ⟨token, tail, rfl, fun c hc => by simpa using (htoken c hc).2,
          by rw [eq_of_beq hstop]⟩
  · rintro ⟨token, tail, rfl, htoken, rfl⟩
    refine ⟨token, rfl, fun c hc => ⟨?_, by simpa using htoken c hc⟩, next, rfl, by simp⟩
    simpa using ne_of_tokenChar (htoken c hc) hnext

theorem pathChar_iff {c : Byte} :
    (c == 32) = false ∧ (!isPrintableAscii c && (c < 32 || c == 127)) = false ↔
      32 < c ∧ c ≠ 127 := by
  simp only [isPrintableAscii, UInt8.lt_iff_toNat_lt, UInt8.le_iff_toNat_le,
    beq_eq_false_iff_ne, ne_eq, ← UInt8.toNat_inj, Bool.and_eq_false_iff, Bool.not_eq_false',
    Bool.or_eq_false_iff, Bool.and_eq_true, decide_eq_true_eq, decide_eq_false_iff_not]
  simp
  omega

theorem advanceToken_ok_iff :
    advanceToken buf = .ok rest ↔
      ∃ path tail, buf = path ++ rest ∧ (∀ c ∈ path, 32 < c ∧ c ≠ 127) ∧ rest = 32 :: tail := by
  rw [advanceToken_eq_scan, scan_ok_iff]
  constructor
  · rintro ⟨path, rfl, hpath, c, hc, hstop⟩
    cases rest with
    | nil => cases hc
    | cons d tail =>
        cases hc
        exact ⟨path, tail, rfl, fun c hc => pathChar_iff.mp (hpath c hc), by rw [eq_of_beq hstop]⟩
  · rintro ⟨path, tail, rfl, hpath, rfl⟩
    exact ⟨path, rfl, fun c hc => pathChar_iff.mpr (hpath c hc), 32, rfl, rfl⟩

theorem skipWhile_ok_iff {p : Byte → Bool} :
    skipWhile p buf = .ok rest ↔
      ∃ pre, buf = pre ++ rest ∧ (∀ c ∈ pre, p c = true) ∧ ∃ c ∈ rest.head?, p c = false := by
  rw [skipWhile_eq_scan, scan_ok_iff]
  simp

/-! ## Lines -/

theorem LineEnd.head_isControl (e : LineEnd) :
    ∃ c tail, e.bytes = c :: tail ∧ isControl c = true := by
  cases e with
  | crlf => exact ⟨13, [10], rfl, rfl⟩
  | lf => exact ⟨10, [], rfl, rfl⟩

theorem expectChar_ok_iff {ch : Byte} : expectChar ch buf = .ok rest ↔ buf = ch :: rest := by
  cases buf with
  | nil => simp [expectChar]
  | cons c buf =>
      rw [expectChar]
      split
      · simp [eq_of_beq ‹(c == ch) = true›]
      · simp_all

theorem expectLineEnd_ok_iff :
    expectLineEnd buf = .ok rest ↔ ∃ e : LineEnd, buf = e.bytes ++ rest := by
  constructor
  · intro h
    cases buf with
    | nil => cases h
    | cons c buf =>
        rw [expectLineEnd] at h
        split at h
        · rw [expectChar_ok_iff.mp h, eq_of_beq ‹(c == 13) = true›]
          exact ⟨.crlf, rfl⟩
        · split at h
          · cases h
            rw [eq_of_beq ‹(c == 10) = true›]
            exact ⟨.lf, rfl⟩
          · cases h
  · rintro ⟨e, rfl⟩
    cases e <;> rfl

/-- **The rest of a line** has no control character in front of the line end. -/
theorem getTokenToEol_ok_iff {t : ℕ} :
    getTokenToEol buf = .ok (t, rest) ↔
      ∃ token, ∃ e : LineEnd, buf = token ++ (e.bytes ++ rest) ∧
        (∀ c ∈ token, isControl c = false) ∧ t = token.length := by
  constructor
  · intro h
    induction buf generalizing t with
    | nil => cases h
    | cons c buf ih =>
        rw [getTokenToEol] at h
        split at h
        · -- the token is empty: the line ends here, or the byte is an error
          split at h
          · obtain ⟨buf', hlf, h⟩ := bind_ok h
            cases h
            rw [expectChar_ok_iff.mp hlf, eq_of_beq ‹(c == 13) = true›]
            exact ⟨[], .crlf, rfl, by simp, rfl⟩
          · split at h
            · cases h
              rw [eq_of_beq ‹(c == 10) = true›]
              exact ⟨[], .lf, rfl, by simp, rfl⟩
            · cases h
        · obtain ⟨⟨t', rest'⟩, hrec, h⟩ := bind_ok h
          cases h
          obtain ⟨token, e, rfl, htoken, rfl⟩ := ih hrec
          refine ⟨c :: token, e, rfl, ?_, rfl⟩
          exact List.forall_mem_cons.mpr ⟨by simpa using ‹¬ isControl c = true›, htoken⟩
  · rintro ⟨token, e, rfl, htoken, rfl⟩
    induction token with
    | nil => cases e <;> rfl
    | cons c token ih =>
        obtain ⟨hc, htoken⟩ := List.forall_mem_cons.mp htoken
        rw [List.cons_append, getTokenToEol, if_neg (by simp [hc]), ih htoken]
        rfl

theorem trimmedLength_content (t : Content) : trimmedLength t.bytes = t.value.length := by
  have htrailing : ∀ c ∈ t.trailing.reverse, isBlank c = true := by
    simpa using t.blank
  have hvalue : t.value.reverse.dropWhile isBlank = t.value.reverse := by
    cases hrev : t.value.reverse with
    | nil => rfl
    | cons c tail =>
        have hc : isBlank c = false := by
          apply t.trimmed
          rw [← List.head?_reverse, hrev]
          rfl
        rw [List.dropWhile_cons_of_neg (by simp [hc])]
  rw [trimmedLength, Content.bytes, List.reverse_append, List.dropWhile_append_of_pos htrailing,
    hvalue, List.length_reverse]

theorem exists_content {bytes : List Byte} (h : ∀ c ∈ bytes, isControl c = false) :
    ∃ t : Content, t.bytes = bytes := by
  induction bytes using List.reverseRecOn with
  | nil => exact ⟨⟨[], [], by simp, by simp, by simp⟩, rfl⟩
  | append_singleton bytes c ih =>
      rw [List.forall_mem_append] at h
      cases hc : isBlank c with
      | true =>
          obtain ⟨t, rfl⟩ := ih h.1
          refine ⟨⟨t.value, t.trailing ++ [c], t.plain, t.trimmed, ?_⟩, ?_⟩
          · rw [List.forall_mem_append]
            exact ⟨t.blank, by simpa using hc⟩
          · simp [Content.bytes]
      | false =>
          refine ⟨⟨bytes ++ [c], [], ?_, by simpa using hc, by simp⟩, by simp [Content.bytes]⟩
          exact List.forall_mem_append.mpr h

theorem Content.isControl (t : Content) : ∀ c ∈ t.bytes, isControl c = false := by
  rw [Content.bytes, List.forall_mem_append]
  exact ⟨t.plain, fun c hc => isControl_of_isBlank (t.blank c hc)⟩

theorem Content.getTokenToEol (t : Content) (e : LineEnd) (rest : List Byte) :
    getTokenToEol (t.bytes ++ (e.bytes ++ rest)) = .ok (t.bytes.length, rest) :=
  getTokenToEol_ok_iff.mpr ⟨t.bytes, e, rfl, t.isControl, rfl⟩

/-! ## Header lines -/

theorem Content.head_bytes (t : Content) (e : LineEnd)
    (h : ∀ c ∈ t.bytes.head?, isBlank c = false) (rest : List Byte) :
    ∃ c ∈ (t.bytes ++ (e.bytes ++ rest)).head?, isBlank c = false := by
  cases hbytes : t.bytes with
  | nil =>
      cases e with
      | crlf => exact ⟨13, rfl, rfl⟩
      | lf => exact ⟨10, rfl, rfl⟩
  | cons c tail =>
      rw [hbytes] at h
      exact ⟨c, rfl, h c rfl⟩

theorem Token.exists_cons (t : Token) :
    ∃ c tail, t.bytes = c :: tail ∧ tokenChar c = true ∧ isBlank c = false := by
  cases hbytes : t.bytes with
  | nil => exact absurd hbytes t.ne_nil
  | cons c tail =>
      have hc : tokenChar c = true := t.chars c (by rw [hbytes]; exact List.mem_cons_self)
      refine ⟨c, tail, rfl, hc, ?_⟩
      cases hblank : isBlank c with
      | false => rfl
      | true => rw [tokenChar_of_isBlank hblank] at hc; cases hc

theorem parseName_ok_iff (len : ℕ) {n : ℤ} {nl : ℕ} :
    parseName len buf = .ok (n, nl, rest) ↔
      ∃ name : Token, ∃ blanks, buf = name.bytes ++ 58 :: (blanks ++ rest) ∧
        (∀ c ∈ blanks, isBlank c = true) ∧ (∃ c ∈ rest.head?, isBlank c = false) ∧
        n = (len : ℤ) - buf.length ∧ nl = name.bytes.length := by
  constructor
  · intro h
    obtain ⟨nameEnd, hname, h⟩ := bind_ok h
    obtain ⟨name, tail, rfl, hchars, rfl⟩ := (parseToken_ok_iff (by decide)).mp hname
    split at h
    · cases h
    · obtain ⟨value, hskip, h⟩ := bind_ok h
      cases h
      obtain ⟨blanks, htail, hblanks, hhead⟩ := skipWhile_ok_iff.mp hskip
      rw [List.tail_cons] at htail
      subst htail
      refine ⟨⟨name, ?_, hchars⟩, blanks, rfl, hblanks, hhead, rfl, by simp⟩
      rintro rfl
      exact absurd rfl ‹¬ _›
  · rintro ⟨name, blanks, rfl, hblanks, hhead, rfl, rfl⟩
    have hlength := List.length_pos_iff.mpr name.ne_nil
    have hname : parseToken 58 (name.bytes ++ 58 :: (blanks ++ rest)) =
        .ok (58 :: (blanks ++ rest)) :=
      (parseToken_ok_iff (by decide)).mpr ⟨_, _, rfl, name.chars, rfl⟩
    have hskip : skipWhile isBlank (blanks ++ rest) = .ok rest :=
      skipWhile_ok_iff.mpr ⟨blanks, rfl, hblanks, hhead⟩
    rw [parseName, hname]
    simp only [Except.bind, List.tail_cons, hskip]
    rw [if_neg (by rw [List.length_append]; omega)]
    simp

/-- **A header line** is parsed to the entry that locates it. -/
theorem parseHeaderLine_render (line : HeaderText) (len : ℕ) {first : Bool}
    (hfirst : first = true → line.IsField) (rest : List Byte) :
    parseHeaderLine len first (line.render ++ rest) =
      .ok (line.locate ((len : ℤ) - (line.render ++ rest).length), rest) := by
  cases line with
  | field name blanks content eol hblanks hstart =>
      obtain ⟨c, tail, hname, -, hc⟩ := name.exists_cons
      have hrender : (HeaderText.field name blanks content eol hblanks hstart).render ++ rest =
          name.bytes ++ 58 :: (blanks ++ (content.bytes ++ (eol.bytes ++ rest))) := by
        simp [HeaderText.render]
      rw [hrender]
      have hparsed := (parseName_ok_iff len).mpr ⟨name, blanks, rfl, hblanks,
        content.head_bytes eol hstart rest, rfl, rfl⟩
      have htoken := content.getTokenToEol eol rest
      have hblank : (name.bytes ++
          58 :: (blanks ++ (content.bytes ++ (eol.bytes ++ rest)))).head?.any isBlank = false := by
        simp [hname, hc]
      simp only [parseHeaderLine, hblank, Bool.not_false, Bool.or_true, if_true, hparsed,
        Except.bind, htoken, List.take_left', trimmedLength_content, HeaderText.locate]
      simp only [Except.ok.injEq, Prod.mk.injEq, PhrHeader.mk.injEq, true_and, and_true]
      push_cast [List.length_append, List.length_cons]
      omega
  | fold content eol hstart =>
      obtain ⟨c, hhead, hc⟩ := hstart
      have hnot : first = false := by
        cases first with
        | false => rfl
        | true => exact (hfirst rfl).elim
      have htoken := content.getTokenToEol eol rest
      have hblank : (content.bytes ++ (eol.bytes ++ rest)).head?.any isBlank = true := by
        obtain ⟨tail, hbytes⟩ := List.head?_eq_some_iff.mp hhead
        simp [hbytes, hc]
      simp only [HeaderText.render, List.append_assoc, parseHeaderLine, hnot, hblank,
        Bool.not_true, Bool.or_false, Bool.false_eq_true, if_false, Except.bind, htoken,
        List.take_left', trimmedLength_content, HeaderText.locate]

theorem exists_headerText {len : ℕ} {first : Bool} {h : PhrHeader}
    (hok : parseHeaderLine len first buf = .ok (h, rest)) :
    ∃ line : HeaderText, (first = true → line.IsField) ∧ buf = line.render ++ rest := by
  obtain ⟨⟨name, nameLen, value⟩, hnamed, hok⟩ := bind_ok hok
  obtain ⟨⟨t, rest'⟩, htoken, hok⟩ := bind_ok hok
  cases hok
  obtain ⟨token, eol, rfl, hplain, rfl⟩ := getTokenToEol_ok_iff.mp htoken
  obtain ⟨content, rfl⟩ := exists_content hplain
  split at hnamed
  · obtain ⟨⟨n, nl, value'⟩, hname, hnamed⟩ := bind_ok hnamed
    cases hnamed
    obtain ⟨text, blanks, rfl, hblanks, ⟨c, hc, hnot⟩, rfl, rfl⟩ := (parseName_ok_iff len).mp hname
    refine ⟨.field text blanks content eol hblanks ?_, fun _ => trivial, ?_⟩
    · intro d hd
      cases hbytes : content.bytes with
      | nil => rw [hbytes] at hd; cases hd
      | cons c' tail =>
          rw [hbytes] at hc hd
          cases hc
          cases hd
          exact hnot
    · simp [HeaderText.render]
  · rename_i hfold
    cases hnamed
    simp only [Bool.or_eq_true, Bool.not_eq_true', not_or, Bool.not_eq_false, Bool.not_eq_true]
      at hfold
    obtain ⟨hfirst, hblank⟩ := hfold
    refine ⟨.fold content eol ?_, fun h => by simp [hfirst] at h, by simp [HeaderText.render]⟩
    cases hbytes : content.bytes with
    | nil =>
        rw [hbytes] at hblank
        cases eol <;> simp [LineEnd.bytes, isBlank] at hblank
    | cons c tail =>
        rw [hbytes] at hblank
        exact ⟨c, rfl, by simpa using hblank⟩

theorem HeaderText.exists_cons (line : HeaderText) :
    ∃ c tail, line.render = c :: tail ∧ c ≠ 13 ∧ c ≠ 10 := by
  cases line with
  | field name blanks content eol _ _ =>
      obtain ⟨c, tail, hname, hc, -⟩ := name.exists_cons
      refine ⟨c, tail ++ 58 :: (blanks ++ (content.bytes ++ eol.bytes)), ?_, ?_, ?_⟩
      · simp [HeaderText.render, hname]
      · exact ne_of_tokenChar hc (by decide)
      · exact ne_of_tokenChar hc (by decide)
  | fold content eol hstart =>
      obtain ⟨c, hhead, hc⟩ := hstart
      obtain ⟨tail, hbytes⟩ := List.head?_eq_some_iff.mp hhead
      refine ⟨c, tail ++ eol.bytes, by simp [HeaderText.render, hbytes], ?_⟩
      rcases isBlank_iff.mp hc with rfl | rfl <;> decide

/-! ## The header lines of a message -/

open HeaderText

/-- **Header lines** are parsed to the table that locates them. -/
theorem parseHeaders_render (last : LineEnd) (len : ℕ) {maxHeaders fuel num : ℕ}
    {buf : List Byte} {lines : List HeaderText}
    (hfirst : num = 0 → ∀ line ∈ lines.head?, line.IsField)
    (hfits : num + lines.length ≤ maxHeaders)
    (hbuf : buf = renderLines lines ++ (last.bytes ++ rest)) (hfuel : buf.length ≤ fuel) :
    parseHeaders len maxHeaders fuel num buf =
      .ok (locateLines ((len : ℤ) - buf.length) lines, rest) := by
  induction lines generalizing fuel num buf with
  | nil =>
      subst hbuf
      cases fuel with
      | zero => cases last <;> simp [LineEnd.bytes] at hfuel
      | succ fuel => cases last <;> rfl
  | cons line lines ih =>
      rw [renderLines_cons, List.append_assoc] at hbuf
      obtain ⟨c, tail, hline, hcr, hlf⟩ := line.exists_cons
      have hcons : buf = c :: (tail ++ (renderLines lines ++ (last.bytes ++ rest))) := by
        rw [hbuf, hline]
        rfl
      have hlength : buf.length =
          line.render.length + (renderLines lines ++ (last.bytes ++ rest)).length := by
        rw [hbuf, List.length_append]
      have hpos : 0 < line.render.length := by
        rw [hline]
        exact Nat.succ_pos _
      cases fuel with
      | zero => omega
      | succ fuel =>
          have hnum : num ≠ maxHeaders := by
            simp at hfits
            omega
          have hisField : (num == 0) = true → line.IsField :=
            fun h => hfirst (by simpa using h) line rfl
          have hparsed := parseHeaderLine_render line len hisField
            (renderLines lines ++ (last.bytes ++ rest))
          have hfits' : num + 1 + lines.length ≤ maxHeaders := by
            rw [List.length_cons] at hfits
            omega
          have hrest := ih (fun h => absurd h (Nat.succ_ne_zero num)) hfits' rfl
            (show _ ≤ fuel by omega)
          rw [hcons, parseHeaders, ← hcons, if_neg (by simpa using hcr),
            if_neg (by simpa using hlf), if_neg (by simpa using hnum)]
          rw [← hbuf] at hparsed
          simp only [hparsed, Except.bind, hrest, locateLines]
          have hoff : (len : ℤ) - (renderLines lines ++ (last.bytes ++ rest)).length =
              (len : ℤ) - buf.length + line.render.length := by
            rw [hlength]
            push_cast
            ring
          rw [hoff]

theorem exists_headerLines {len maxHeaders fuel num : ℕ} {hs : List PhrHeader}
    (hnum : num ≤ maxHeaders)
    (hok : parseHeaders len maxHeaders fuel num buf = .ok (hs, rest)) :
    ∃ lines : List HeaderText, ∃ last : LineEnd,
      (num = 0 → ∀ line ∈ lines.head?, line.IsField) ∧ num + lines.length ≤ maxHeaders ∧
        buf = renderLines lines ++ (last.bytes ++ rest) := by
  induction fuel generalizing num buf hs with
  | zero => cases buf <;> cases hok
  | succ fuel ih =>
      cases buf with
      | nil => cases hok
      | cons c buf =>
          rw [parseHeaders] at hok
          split at hok
          · obtain ⟨buf', hlf, hok⟩ := bind_ok hok
            cases hok
            rw [expectChar_ok_iff.mp hlf, eq_of_beq ‹(c == 13) = true›]
            exact ⟨[], .crlf, by simp, by simpa using hnum, rfl⟩
          · split at hok
            · cases hok
              rw [eq_of_beq ‹(c == 10) = true›]
              exact ⟨[], .lf, by simp, by simpa using hnum, rfl⟩
            · split at hok
              · cases hok
              · rename_i hmax
                obtain ⟨⟨h, buf'⟩, hline, hok⟩ := bind_ok hok
                obtain ⟨⟨hs', rest'⟩, hrest, hok⟩ := bind_ok hok
                cases hok
                obtain ⟨line, hfirst, hbuf⟩ := exists_headerText hline
                have hlt : num + 1 ≤ maxHeaders := by
                  have hne : num ≠ maxHeaders := by simpa using hmax
                  omega
                obtain ⟨lines, last, -, hfits, rfl⟩ := ih hlt hrest
                refine ⟨line :: lines, last, ?_, ?_, ?_⟩
                · intro h0 line' hhead
                  cases hhead
                  exact hfirst (by simp [h0])
                · rw [List.length_cons]
                  omega
                · rw [hbuf, renderLines_cons, List.append_assoc]

/-- **What `parse_headers` accepts**, and the table it fills in. -/
theorem parseHeaders_ok_iff (len : ℕ) {maxHeaders : ℕ} {hs : List PhrHeader} :
    parseHeaders len maxHeaders buf.length 0 buf = .ok (hs, rest) ↔
      ∃ t : HeadersText maxHeaders, buf = t.render ++ rest ∧
        hs = t.locate ((len : ℤ) - buf.length) := by
  constructor
  · intro hok
    obtain ⟨lines, last, hfirst, hfits, hbuf⟩ := exists_headerLines (Nat.zero_le _) hok
    have hrender := parseHeaders_render last len hfirst hfits hbuf (le_refl _)
    rw [hok] at hrender
    cases hrender
    refine ⟨⟨lines, hfirst rfl, by simpa using hfits, last⟩, ?_, rfl⟩
    rw [hbuf, HeadersText.render, List.append_assoc]
  · rintro ⟨t, hbuf, rfl⟩
    refine parseHeaders_render t.last len (fun _ => t.first) (by simpa using t.fits) ?_ (le_refl _)
    rw [hbuf, HeadersText.render, List.append_assoc]

/-! ## Versions, numbers and spaces -/

theorem toNat_digit (d : Fin 10) : (digit d).toNat = 48 + d.val := by
  revert d
  decide

theorem not_digit_eq_false (d : Fin 10) : (digit d < 48 || 57 < digit d) = false := by
  revert d
  decide

theorem exists_digit {c : Byte} (h : (c < 48 || 57 < c) = false) : ∃ d, c = digit d := by
  simp only [Bool.or_eq_false_iff, decide_eq_false_iff_not, UInt8.lt_iff_toNat_lt] at h
  obtain ⟨hlow, hhigh⟩ := h
  have hlow' : 48 ≤ c.toNat := by simpa using hlow
  have hhigh' : c.toNat ≤ 57 := by simpa using hhigh
  refine ⟨⟨c.toNat - 48, by omega⟩, UInt8.toNat_inj.mp ?_⟩
  rw [toNat_digit]
  simp only
  omega

theorem expectChars_ok_iff {chs : List Byte} :
    expectChars chs buf = .ok rest ↔ buf = chs ++ rest := by
  induction chs generalizing buf with
  | nil => simp [expectChars]
  | cons ch chs ih =>
      constructor
      · intro h
        obtain ⟨buf', hch, h⟩ := bind_ok h
        rw [expectChar_ok_iff.mp hch, ih.mp h]
        rfl
      · rintro rfl
        rw [List.cons_append, expectChars, expectChar_ok_iff.mpr rfl]
        exact ih.mpr rfl

theorem parseHttpVersion_ok_iff {v : ℤ} :
    parseHttpVersion buf = .ok (v, rest) ↔
      ∃ d : Fin 10, buf = versionText d ++ rest ∧ v = d.val ∧ rest ≠ [] := by
  constructor
  · intro h
    rw [parseHttpVersion] at h
    split at h
    · cases h
    · rename_i hlength
      obtain ⟨buf', hchars, h⟩ := bind_ok h
      rw [expectChars_ok_iff] at hchars
      cases buf' with
      | nil => cases h
      | cons c buf' =>
          simp only at h
          split at h
          · cases h
          · rename_i hdigit
            obtain ⟨d, rfl⟩ := exists_digit (by simpa using hdigit)
            cases h
            refine ⟨d, hchars, by simp [toNat_digit], ?_⟩
            rintro rfl
            rw [hchars] at hlength
            exact hlength (by simp)
  · rintro ⟨d, rfl, rfl, hne⟩
    have hlength : ¬ (versionText d ++ rest).length < 9 := by
      have := List.length_pos_iff.mpr hne
      simp [versionText]
      omega
    have hchars : expectChars [72, 84, 84, 80, 47, 49, 46] (versionText d ++ rest) =
        .ok (digit d :: rest) := expectChars_ok_iff.mpr rfl
    rw [parseHttpVersion, if_neg hlength, hchars]
    simp only [Except.bind]
    rw [if_neg (by simpa using not_digit_eq_false d), toNat_digit]
    simp

theorem parseInt_ok_iff {mul v : ℤ} :
    parseInt mul buf = .ok (v, rest) ↔ ∃ d : Fin 10, buf = digit d :: rest ∧ v = mul * d.val := by
  cases buf with
  | nil => simp [parseInt]
  | cons c buf =>
      rw [parseInt]
      constructor
      · intro h
        split at h
        · cases h
        · rename_i hdigit
          obtain ⟨d, rfl⟩ := exists_digit (by simpa using hdigit)
          cases h
          exact ⟨d, rfl, by simp [toNat_digit]⟩
      · rintro ⟨d, hbuf, rfl⟩
        cases hbuf
        rw [if_neg (by simpa using not_digit_eq_false d), toNat_digit]
        simp

theorem parseInt3_ok_iff {v : ℤ} :
    parseInt3 buf = .ok (v, rest) ↔
      ∃ a b c : Fin 10, buf = [digit a, digit b, digit c] ++ rest ∧
        v = 100 * a.val + 10 * b.val + c.val := by
  constructor
  · intro h
    obtain ⟨⟨v₁, buf₁⟩, h₁, h⟩ := bind_ok h
    obtain ⟨⟨v₂, buf₂⟩, h₂, h⟩ := bind_ok h
    obtain ⟨⟨v₃, buf₃⟩, h₃, h⟩ := bind_ok h
    cases h
    obtain ⟨a, rfl, rfl⟩ := parseInt_ok_iff.mp h₁
    obtain ⟨b, rfl, rfl⟩ := parseInt_ok_iff.mp h₂
    obtain ⟨c, rfl, rfl⟩ := parseInt_ok_iff.mp h₃
    exact ⟨a, b, c, rfl, by ring⟩
  · rintro ⟨a, b, c, rfl, rfl⟩
    rw [parseInt3, List.cons_append, parseInt_ok_iff.mpr ⟨a, rfl, rfl⟩]
    simp only [Except.bind, List.cons_append]
    rw [parseInt_ok_iff.mpr ⟨b, rfl, rfl⟩]
    simp only [List.nil_append]
    rw [parseInt_ok_iff.mpr ⟨c, rfl, rfl⟩]
    simp

theorem skipWhile_space_ok_iff :
    skipWhile (· == 32) buf = .ok rest ↔
      ∃ n, buf = List.replicate n 32 ++ rest ∧ ∃ c ∈ rest.head?, c ≠ 32 := by
  rw [skipWhile_ok_iff]
  constructor
  · rintro ⟨pre, rfl, hpre, c, hc, hne⟩
    refine ⟨pre.length, ?_, c, hc, by simpa using hne⟩
    rw [← List.eq_replicate_length.mpr fun c hc => eq_of_beq (hpre c hc)]
  · rintro ⟨n, rfl, c, hc, hne⟩
    refine ⟨_, rfl, fun d hd => ?_, c, hc, by simpa using hne⟩
    simp [List.eq_of_mem_replicate hd]

theorem skipSpaces_ok_iff :
    skipSpaces buf = .ok rest ↔
      ∃ n, buf = spaces n ++ rest ∧ ∃ c ∈ rest.head?, c ≠ 32 := by
  cases buf with
  | nil => simp [skipSpaces, spaces, List.replicate_succ]
  | cons c buf =>
      rw [skipSpaces]
      constructor
      · intro h
        split at h
        · cases h
        · rename_i hspace
          obtain ⟨n, rfl, hhead⟩ := skipWhile_space_ok_iff.mp h
          have hc : c = 32 := by simpa using hspace
          exact ⟨n, by rw [hc]; rfl, hhead⟩
      · rintro ⟨n, hbuf, hhead⟩
        rw [spaces, List.replicate_succ, List.cons_append] at hbuf
        cases hbuf
        rw [if_neg (by simp)]
        exact skipWhile_space_ok_iff.mpr ⟨n, rfl, hhead⟩

end Pico

end Zroxy
