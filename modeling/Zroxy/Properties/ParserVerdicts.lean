import Zroxy.Properties.MessageGrammar

/-!
# Verdicts on a message that is still arriving

Every part of the parser is monotone: what it has accepted or rejected stays
accepted or rejected when more input arrives behind. With the grammar, which
says that a message is accepted as soon as it is there, the verdicts on the
fronts of a stream settle: `-2` up to one point, and the same result or `-1` from
then on.
-/

namespace Zroxy

open Incremental Runs

namespace Pico

variable {buf more : List Byte}

/-! ## The parts are monotone -/

theorem expectChar_later (ch : Byte) (buf more : List Byte) :
    Later partialRequest (· ++ more) (expectChar ch buf) (expectChar ch (buf ++ more)) := by
  cases buf with
  | nil => exact Later.of_incomplete _ _
  | cons c buf =>
      rw [List.cons_append, expectChar, expectChar]
      split
      · exact Later.of_ok rfl
      · exact Later.of_error _ _

theorem expectChars_later (chs buf more : List Byte) :
    Later partialRequest (· ++ more) (expectChars chs buf) (expectChars chs (buf ++ more)) := by
  induction chs generalizing buf with
  | nil => exact Later.of_ok rfl
  | cons ch chs ih => exact (expectChar_later ch buf more).bind fun rest _ => ih rest

theorem parseToken_later (next : Byte) (buf more : List Byte) :
    Later partialRequest (· ++ more) (parseToken next buf) (parseToken next (buf ++ more)) := by
  rw [parseToken_eq_scan, parseToken_eq_scan]
  exact scan_later buf more

theorem advanceToken_later (buf more : List Byte) :
    Later partialRequest (· ++ more) (advanceToken buf) (advanceToken (buf ++ more)) := by
  rw [advanceToken_eq_scan, advanceToken_eq_scan]
  exact scan_later buf more

theorem skipWhile_later (p : Byte → Bool) (buf more : List Byte) :
    Later partialRequest (· ++ more) (skipWhile p buf) (skipWhile p (buf ++ more)) := by
  rw [skipWhile_eq_scan, skipWhile_eq_scan]
  exact scan_later buf more

theorem getTokenToEol_later (buf more : List Byte) :
    Later partialRequest (Prod.map id (· ++ more)) (getTokenToEol buf)
      (getTokenToEol (buf ++ more)) := by
  induction buf with
  | nil => exact Later.of_incomplete _ _
  | cons c buf ih =>
      rw [List.cons_append, getTokenToEol, getTokenToEol]
      split
      · split
        · exact (expectChar_later 10 buf more).bind fun rest _ => Later.of_ok rfl
        · split
          · exact Later.of_ok rfl
          · exact Later.of_error _ _
      · exact ih.bind fun r _ => Later.of_ok rfl

theorem expectLineEnd_later (buf more : List Byte) :
    Later partialRequest (· ++ more) (expectLineEnd buf) (expectLineEnd (buf ++ more)) := by
  cases buf with
  | nil => exact Later.of_incomplete _ _
  | cons c buf =>
      rw [List.cons_append, expectLineEnd, expectLineEnd]
      split
      · exact expectChar_later 10 buf more
      · split
        · exact Later.of_ok rfl
        · exact Later.of_error _ _

theorem skipEmptyLine_later (buf more : List Byte) :
    Later partialRequest (· ++ more) (skipEmptyLine buf) (skipEmptyLine (buf ++ more)) := by
  cases buf with
  | nil => exact Later.of_incomplete _ _
  | cons c buf =>
      rw [List.cons_append, skipEmptyLine, skipEmptyLine]
      split
      · exact expectChar_later 10 buf more
      · split <;> exact Later.of_ok rfl

theorem parseHttpVersion_later (buf more : List Byte) :
    Later partialRequest (Prod.map id (· ++ more)) (parseHttpVersion buf)
      (parseHttpVersion (buf ++ more)) := by
  rw [parseHttpVersion, parseHttpVersion]
  split
  · exact Later.of_incomplete _ _
  · rw [if_neg (by rw [List.length_append]; omega)]
    refine (expectChars_later _ buf more).bind fun rest _ => ?_
    cases rest with
    | nil => exact Later.of_incomplete _ _
    | cons c rest =>
        simp only [List.cons_append]
        split
        · exact Later.of_error _ _
        · exact Later.of_ok rfl

/-! ## Header lines -/

theorem offset_append (len : ℕ) (buf more : List Byte) :
    ((len + more.length : ℕ) : ℤ) - (buf ++ more).length = (len : ℤ) - buf.length := by
  rw [List.length_append]
  omega

theorem distance_append (buf rest more : List Byte) :
    (buf ++ more).length - (rest ++ more).length = buf.length - rest.length := by
  rw [List.length_append, List.length_append]
  omega

theorem parseName_later (len : ℕ) (buf more : List Byte) :
    Later partialRequest (Prod.map id (Prod.map id (· ++ more))) (parseName len buf)
      (parseName (len + more.length) (buf ++ more)) := by
  refine (parseToken_later 58 buf more).bind fun rest hrest => ?_
  have hne : rest ≠ [] := by
    obtain ⟨token, tail, -, -, rfl⟩ := (parseToken_ok_iff (by decide)).mp hrest
    exact List.cons_ne_nil _ _
  have hlength : (rest ++ more).length = (buf ++ more).length ↔ rest.length = buf.length := by
    rw [List.length_append, List.length_append]
    omega
  simp only [hlength]
  split
  · exact Later.of_error _ _
  · rw [List.tail_append_of_ne_nil hne]
    refine (skipWhile_later isBlank rest.tail more).bind fun value _ => ?_
    exact Later.of_ok (by rw [offset_append, distance_append]; rfl)

theorem parseHeaderLine_later (len : ℕ) (first : Bool) (hne : buf ≠ []) (more : List Byte) :
    Later partialRequest (Prod.map id (· ++ more)) (parseHeaderLine len first buf)
      (parseHeaderLine (len + more.length) first (buf ++ more)) := by
  have hvalue : ∀ (name : Option ℤ) (nameLen : ℕ) (value : List Byte),
      Later partialRequest (Prod.map id (· ++ more))
        ((getTokenToEol value).bind fun t => .ok (PhrHeader.mk name nameLen
          ((len : ℤ) - value.length) (trimmedLength (value.take t.1)), t.2))
        ((getTokenToEol (value ++ more)).bind fun t => .ok (PhrHeader.mk name nameLen
          (((len + more.length : ℕ) : ℤ) - (value ++ more).length)
          (trimmedLength ((value ++ more).take t.1)), t.2)) := by
    intro name nameLen value
    refine (getTokenToEol_later value more).bind fun t ht => ?_
    obtain ⟨token, e, rfl, -, hlen⟩ := getTokenToEol_ok_iff.mp ht
    refine Later.of_ok ?_
    rw [offset_append, List.append_assoc, hlen]
    simp [hlen]
  have hhead : (buf ++ more).head? = buf.head? := by
    obtain ⟨c, tail, rfl⟩ := List.exists_cons_of_ne_nil hne
    rfl
  unfold parseHeaderLine
  simp only [hhead]
  split
  · refine Later.bind (?_ : Later partialRequest (Prod.map id (Prod.map id (· ++ more))) _ _)
      fun n _ => hvalue n.1 n.2.1 n.2.2
    exact (parseName_later len buf more).bind fun r _ => Later.of_ok rfl
  · exact hvalue none 0 buf

theorem parseHeaders_later {len maxHeaders fuel fuel' num : ℕ} (more : List Byte)
    (hfuel : buf.length ≤ fuel) (hfuel' : (buf ++ more).length ≤ fuel') :
    Later partialRequest (Prod.map id (· ++ more)) (parseHeaders len maxHeaders fuel num buf)
      (parseHeaders (len + more.length) maxHeaders fuel' num (buf ++ more)) := by
  induction fuel generalizing fuel' num buf with
  | zero =>
      rw [List.length_eq_zero_iff.mp (Nat.le_zero.mp hfuel)]
      exact Later.of_incomplete _ _
  | succ fuel ih =>
      cases buf with
      | nil => exact Later.of_incomplete _ _
      | cons c buf =>
          cases fuel' with
          | zero => simp at hfuel'
          | succ fuel' =>
              rw [List.cons_append, parseHeaders, parseHeaders]
              split
              · exact (expectChar_later 10 buf more).bind fun rest _ => Later.of_ok rfl
              · split
                · exact Later.of_ok rfl
                · split
                  · exact Later.of_error _ _
                  · rw [← List.cons_append]
                    refine (parseHeaderLine_later len _ (List.cons_ne_nil c buf) more).bind
                      fun h hline => ?_
                    -- a line takes at least one byte
                    obtain ⟨line, -, hbuf⟩ := exists_headerText hline
                    obtain ⟨d, tail, hrender, -⟩ := line.exists_cons
                    have hlength := congrArg List.length hbuf
                    rw [hrender] at hlength
                    simp at hlength hfuel hfuel'
                    refine (ih (by omega) (by simp; omega)).bind fun r _ => ?_
                    exact Later.of_ok rfl

/-! ## Messages -/

theorem length_append_eq_iff (buf rest more : List Byte) :
    (rest ++ more).length = (buf ++ more).length ↔ rest.length = buf.length := by
  rw [List.length_append, List.length_append]
  omega

theorem skipWhile_tail_later {p : Byte → Bool} (hne : buf ≠ []) (more : List Byte) :
    Later partialRequest (· ++ more) (skipWhile p buf.tail) (skipWhile p (buf ++ more).tail) := by
  rw [List.tail_append_of_ne_nil hne]
  exact skipWhile_later p buf.tail more

theorem parseRequest_later (len maxHeaders : ℕ) (buf more : List Byte) :
    Later partialRequest id (parseRequest len maxHeaders buf)
      (parseRequest (len + more.length) maxHeaders (buf ++ more)) := by
  refine (skipEmptyLine_later buf more).bind fun method _ => ?_
  refine (parseToken_later 32 method more).bind fun methodEnd hmethodEnd => ?_
  obtain ⟨-, nameTail, -, -, hname⟩ := (parseToken_ok_iff (by decide)).mp hmethodEnd
  refine (skipWhile_tail_later (by simp [hname]) more).bind fun path _ => ?_
  refine (advanceToken_later path more).bind fun pathEnd hpathEnd => ?_
  obtain ⟨-, pathTail, -, -, hpath⟩ := advanceToken_ok_iff.mp hpathEnd
  refine (skipWhile_tail_later (by simp [hpath]) more).bind fun version _ => ?_
  simp only [length_append_eq_iff]
  split
  · exact Later.of_error _ _
  · refine (parseHttpVersion_later version more).bind fun v _ => ?_
    refine (expectLineEnd_later v.2 more).bind fun lines _ => ?_
    refine (parseHeaders_later more (le_refl _) (le_refl _)).bind fun h _ => ?_
    refine Later.of_ok ?_
    simp only [Prod.map_fst, Prod.map_snd, offset_append, distance_append, id]

theorem parseInt_later (mul : ℤ) (buf more : List Byte) :
    Later partialRequest (Prod.map id (· ++ more)) (parseInt mul buf)
      (parseInt mul (buf ++ more)) := by
  cases buf with
  | nil => exact Later.of_incomplete _ _
  | cons c buf =>
      rw [List.cons_append, parseInt, parseInt]
      split
      · exact Later.of_error _ _
      · exact Later.of_ok rfl

theorem parseInt3_later (buf more : List Byte) :
    Later partialRequest (Prod.map id (· ++ more)) (parseInt3 buf) (parseInt3 (buf ++ more)) := by
  refine (parseInt_later 100 buf more).bind fun a _ => ?_
  refine (parseInt_later 10 a.2 more).bind fun b _ => ?_
  exact (parseInt_later 1 b.2 more).bind fun c _ => Later.of_ok rfl

theorem skipSpaces_later (buf more : List Byte) :
    Later partialRequest (· ++ more) (skipSpaces buf) (skipSpaces (buf ++ more)) := by
  cases buf with
  | nil => exact Later.of_incomplete _ _
  | cons c buf =>
      rw [List.cons_append, skipSpaces, skipSpaces]
      split
      · exact Later.of_error _ _
      · exact skipWhile_later _ buf more

theorem trimMessage_append {t : ℕ} {rest : List Byte} (h : getTokenToEol buf = .ok (t, rest))
    (more : List Byte) : trimMessage t (buf ++ more) = trimMessage t buf := by
  obtain ⟨token, e, rfl, -, -⟩ := getTokenToEol_ok_iff.mp h
  obtain ⟨c, tail, he, hc⟩ := e.head_isControl
  have hne : (c == 32) = false := by
    cases hcase : c == (32 : Byte) with
    | false => rfl
    | true =>
        rw [eq_of_beq hcase] at hc
        cases hc
  have htake : ∀ tail', (token ++ c :: tail').takeWhile (· == 32) = token.takeWhile (· == 32) := by
    intro tail'
    rw [List.takeWhile_append]
    split
    · rename_i hall
      rw [List.takeWhile_cons_of_neg (by simpa using hne), List.append_nil]
      exact ((List.takeWhile_sublist _).eq_of_length hall).symm
    · rfl
  unfold trimMessage
  simp only [he, List.append_assoc, List.cons_append, htake]
  cases token <;> rfl

theorem parseResponse_later (len maxHeaders : ℕ) (buf more : List Byte) :
    Later partialRequest id (parseResponse len maxHeaders buf)
      (parseResponse (len + more.length) maxHeaders (buf ++ more)) := by
  refine (parseHttpVersion_later buf more).bind fun v _ => ?_
  refine (skipSpaces_later v.2 more).bind fun code _ => ?_
  split
  · exact Later.of_incomplete _ _
  · rw [if_neg (by rw [List.length_append]; omega)]
    refine (parseInt3_later code more).bind fun s _ => ?_
    refine (getTokenToEol_later s.2 more).bind fun t ht => ?_
    simp only [Prod.map_fst, Prod.map_snd, id, trimMessage_append ht]
    refine (Later.same _).bind fun m _ => ?_
    refine (parseHeaders_later more (le_refl _) (le_refl _)).bind fun h _ => ?_
    refine Later.of_ok ?_
    simp only [Prod.map_fst, Prod.map_snd, offset_append, id]

end Pico

open Pico

/-! ## Verdicts settle -/

theorem phrParseRequest_decides (maxHeaders : ℕ) :
    Decides partialRequest (fun buf => phrParseRequest buf maxHeaders)
      (fun r => r.consumed.toNat) where
  later w x := by
    have h := parseRequest_later w.length maxHeaders w x
    rw [← List.length_append] at h
    exact h
  front w r hr := by
    obtain ⟨t, rest, rfl⟩ := exists_requestText hr
    simp only [phrParseRequest_render] at hr
    cases hr
    refine ⟨by simp [RequestText.locate], ?_⟩
    have hrender := phrParseRequest_render t []
    rw [List.append_nil] at hrender
    simpa [RequestText.locate] using hrender

theorem parseResponse_decides (maxHeaders : ℕ) :
    Decides partialRequest (fun buf => parseResponse buf.length maxHeaders buf)
      (fun r => r.consumed.toNat) where
  later w x := by
    have h := parseResponse_later w.length maxHeaders w x
    rw [← List.length_append] at h
    exact h
  front w r hr := by
    obtain ⟨t, rest, rfl⟩ := exists_responseText hr
    rw [parseResponse_render] at hr
    cases hr
    refine ⟨by simp [ResponseText.locate], ?_⟩
    have hrender := parseResponse_render t []
    rw [List.append_nil] at hrender
    simpa [ResponseText.locate] using hrender

/-- **A request that is arriving.** Along every stream of bytes the parser says
that the request is partial up to one point and never changes its verdict behind
it: a request is accepted, with the same result, as soon as its last byte is
there, and a syntax error stays one. -/
theorem phrParseRequest_settles (maxHeaders : ℕ) (s : Stream' Byte) :
    (∀ n, phrParseRequest (s.take n) maxHeaders = .error partialRequest) ∨
      ∃ (k : ℕ) (verdict : Except ℤ PhrRequest), verdict ≠ .error partialRequest ∧
        (∀ r, verdict = .ok r → (k : ℤ) = r.consumed) ∧
        ∀ n, phrParseRequest (s.take n) maxHeaders =
          if n < k then .error partialRequest else verdict := by
  rcases (phrParseRequest_decides maxHeaders).settles s with hall | ⟨k, v, hv, hk, hverdict⟩
  · exact Or.inl hall
  · refine Or.inr ⟨k, v, hv, fun r hr => ?_, hverdict⟩
    have hok : phrParseRequest (s.take k) maxHeaders = .ok r := by
      rw [hverdict, if_neg (lt_irrefl k), hr]
    obtain ⟨t, rest, hbuf⟩ := exists_requestText hok
    rw [hbuf, phrParseRequest_render] at hok
    cases hok
    rw [hk _ hr]
    rfl

/-- **A response that is arriving**, likewise. -/
theorem phrParseResponse_settles (maxHeaders : ℕ) (s : Stream' Byte) :
    (∀ n, phrParseResponse (s.take n) maxHeaders 0 = .error partialRequest) ∨
      ∃ (k : ℕ) (verdict : Except ℤ PhrResponse), verdict ≠ .error partialRequest ∧
        (∀ r, verdict = .ok r → (k : ℤ) = r.consumed) ∧
        ∀ n, phrParseResponse (s.take n) maxHeaders 0 =
          if n < k then .error partialRequest else verdict := by
  rcases (parseResponse_decides maxHeaders).settles s with hall | ⟨k, v, hv, hk, hverdict⟩
  · exact Or.inl hall
  · refine Or.inr ⟨k, v, hv, fun r hr => ?_, hverdict⟩
    have hok : parseResponse (s.take k).length maxHeaders (s.take k) = .ok r := by
      have hverdict := hverdict k
      rw [if_neg (lt_irrefl k), hr] at hverdict
      exact hverdict
    obtain ⟨t, rest, hbuf⟩ := exists_responseText hok
    rw [hbuf, parseResponse_render] at hok
    cases hok
    rw [hk _ hr]
    rfl

end Zroxy
