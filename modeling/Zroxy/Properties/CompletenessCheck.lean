import Zroxy.Properties.ParserVerdicts

/-!
# Asking again with the length of the last input

A caller whose request was partial may pass the length of that input the next
time; the parser then looks for the end of the header block first, from three
bytes before that length on. No message is lost by this: in the text of a
message every CR is followed by LF, two line ends follow each other at its end,
and they take four bytes at most.
-/

namespace Zroxy

open Incremental Runs

namespace Pico

variable {a b text rest : List Byte}

/-! ## Paired line ends -/

/-- Every CR is followed by LF. -/
def Paired : List Byte → Prop
  | [] => True
  | c :: text => (c = 13 → text.head? = some 10) ∧ Paired text

theorem Paired.of_append (h : Paired (a ++ b)) : Paired b := by
  induction a with
  | nil => exact h
  | cons c a ih => exact ih h.2

theorem Paired.drop (h : Paired text) (n : ℕ) : Paired (text.drop n) := by
  rw [← List.take_append_drop n text] at h
  exact h.of_append

theorem Paired.append (ha : Paired a) (hb : Paired b) : Paired (a ++ b) := by
  induction a with
  | nil => exact hb
  | cons c a ih =>
      refine ⟨fun hc => ?_, ih ha.2⟩
      show (a ++ b).head? = some 10
      rw [List.head?_append, ha.1 hc]
      rfl

theorem paired_of_ne (h : ∀ c ∈ text, c ≠ 13) : Paired text := by
  induction text with
  | nil => trivial
  | cons c text ih =>
      obtain ⟨hc, htext⟩ := List.forall_mem_cons.mp h
      exact ⟨fun h13 => absurd h13 hc, ih htext⟩

theorem LineEnd.paired (e : LineEnd) : Paired e.bytes := by
  cases e <;> simp [LineEnd.bytes, Paired]

/-! ## The search -/

theorem isCompleteFrom_lineEnd (k : ℕ) (e : LineEnd) (rest : List Byte) :
    isCompleteFrom k (e.bytes ++ rest) =
      if k + 1 = 2 then .ok rest else isCompleteFrom (k + 1) rest := by
  cases e with
  | crlf => rfl
  | lf =>
      show isCompleteFrom k (10 :: rest) = _
      rw [isCompleteFrom.eq_def]
      rfl

theorem isCompleteFrom_other (k : ℕ) {c : Byte} (hcr : c ≠ 13) (hlf : c ≠ 10)
    (rest : List Byte) : isCompleteFrom k (c :: rest) = isCompleteFrom 0 rest := by
  rw [isCompleteFrom.eq_def]
  simp [hcr, hlf]

theorem isCompleteFrom_found_of_lineEnd {k : ℕ} (hk : k ≤ 1) (e : LineEnd)
    (h : ∃ found, isCompleteFrom 1 rest = .ok found) :
    ∃ found, isCompleteFrom k (e.bytes ++ rest) = .ok found := by
  rw [isCompleteFrom_lineEnd]
  split
  · exact ⟨rest, rfl⟩
  · have h0 : k = 0 := by omega
    rw [h0]
    exact h

/-- **Two line ends are found** where no CR stands on its own. -/
theorem isCompleteFrom_found {k : ℕ} (hk : k ≤ 1) (pre : List Byte) (e e' : LineEnd)
    (hpaired : Paired (pre ++ (e.bytes ++ e'.bytes))) (rest : List Byte) :
    ∃ found, isCompleteFrom k (pre ++ (e.bytes ++ (e'.bytes ++ rest))) = .ok found := by
  induction hn : pre.length using Nat.strong_induction_on generalizing pre k with
  | _ n ih =>
      have hlast : ∃ found, isCompleteFrom 1 (e'.bytes ++ rest) = .ok found :=
        ⟨rest, isCompleteFrom_lineEnd 1 e' rest⟩
      cases pre with
      | nil => exact isCompleteFrom_found_of_lineEnd hk e hlast
      | cons c pre =>
          have hshorter : pre.length < n := by
            rw [← hn]
            exact Nat.lt_succ_self _
          by_cases hcr : c = 13
          · have hhead := hpaired.1 hcr
            cases pre with
            | nil =>
                -- the CR belongs to the first of the two line ends
                cases e with
                | crlf => simp [LineEnd.bytes] at hhead
                | lf =>
                    rw [hcr]
                    exact isCompleteFrom_found_of_lineEnd hk .crlf hlast
            | cons d pre =>
                have hd : d = 10 := by simpa using hhead
                rw [hcr, hd]
                exact isCompleteFrom_found_of_lineEnd hk .crlf
                  (ih pre.length (Nat.lt_of_succ_lt hshorter) (le_refl 1) pre hpaired.2.2 rfl)
          · by_cases hlf : c = 10
            · rw [hlf]
              exact isCompleteFrom_found_of_lineEnd hk .lf
                (ih pre.length hshorter (le_refl 1) pre hpaired.2 rfl)
            · rw [List.cons_append, isCompleteFrom_other k hcr hlf]
              exact ih pre.length hshorter (Nat.zero_le 1) pre hpaired.2 rfl

theorem not_paired_of_isCompleteFrom {k : ℕ} (h : isCompleteFrom k text = .error parseError)
    (more : List Byte) : ¬ Paired (text ++ more) := by
  induction hn : text.length using Nat.strong_induction_on generalizing text k with
  | _ n ih =>
      cases text with
      | nil => cases h
      | cons c text =>
          have hshorter : text.length < n := by
            rw [← hn]
            exact Nat.lt_succ_self _
          by_cases hcr : c = 13
          · subst hcr
            cases text with
            | nil => cases h
            | cons d text =>
                by_cases hd : d = 10
                · subst hd
                  rw [show (13 : Byte) :: 10 :: text = LineEnd.crlf.bytes ++ text from rfl,
                    isCompleteFrom_lineEnd] at h
                  split at h
                  · cases h
                  · exact fun hpaired =>
                      ih text.length (Nat.lt_of_succ_lt hshorter) h rfl hpaired.2.2
                · exact fun hpaired => hd (by simpa using hpaired.1 rfl)
          · by_cases hlf : c = 10
            · subst hlf
              rw [show (10 : Byte) :: text = LineEnd.lf.bytes ++ text from rfl,
                isCompleteFrom_lineEnd] at h
              split at h
              · cases h
              · exact fun hpaired => ih text.length hshorter h rfl hpaired.2
            · rw [isCompleteFrom_other k hcr hlf] at h
              exact fun hpaired => ih text.length hshorter h rfl hpaired.2

/-- The text of a message: no CR on its own, and two line ends at its end. -/
structure Terminated (text : List Byte) : Prop where
  paired : Paired text
  last : ∃ pre, ∃ e e' : LineEnd, text = pre ++ (e.bytes ++ e'.bytes)

theorem Terminated.prepend (ha : Paired a) (hb : Terminated b) : Terminated (a ++ b) := by
  obtain ⟨pre, e, e', rfl⟩ := hb.last
  exact ⟨ha.append hb.paired, a ++ pre, e, e', by rw [List.append_assoc]⟩

theorem LineEnd.length_bytes_le (e : LineEnd) : e.bytes.length ≤ 2 := by
  cases e <;> simp [LineEnd.bytes]

/-- **The check passes** when the message goes beyond the last input: the two
line ends take four bytes, and three of them are looked at again. -/
theorem checkComplete_of_terminated {lastLen : ℕ} (h : Terminated text)
    (hlen : lastLen < text.length) (rest : List Byte) :
    checkComplete (text ++ rest) lastLen = .ok () := by
  unfold checkComplete
  split
  · obtain ⟨pre, e, e', htext⟩ := h.last
    have hshort : lastLen - 3 ≤ pre.length := by
      have hlength := congrArg List.length htext
      have he := e.length_bytes_le
      have he' := e'.length_bytes_le
      simp only [List.length_append] at hlength
      omega
    have hdrop : text.drop (lastLen - 3) = pre.drop (lastLen - 3) ++ (e.bytes ++ e'.bytes) := by
      rw [htext, List.drop_append_of_le_length hshort]
    have hstart : (if lastLen < 3 then text ++ rest else (text ++ rest).drop (lastLen - 3)) =
        pre.drop (lastLen - 3) ++ (e.bytes ++ (e'.bytes ++ rest)) := by
      have hall : (text ++ rest).drop (lastLen - 3) =
          pre.drop (lastLen - 3) ++ (e.bytes ++ (e'.bytes ++ rest)) := by
        rw [List.drop_append_of_le_length (by omega), hdrop]
        simp
      split
      · rename_i hfew
        rw [← hall, Nat.sub_eq_zero_of_le (Nat.le_of_lt hfew), List.drop_zero]
      · exact hall
    have hpaired := h.paired.drop (lastLen - 3)
    rw [hdrop] at hpaired
    obtain ⟨found, hfound⟩ := isCompleteFrom_found (Nat.zero_le 1) _ e e' hpaired rest
    rw [isComplete, hstart, hfound]
    rfl
  · rfl

theorem not_paired_of_checkComplete {lastLen : ℕ} {buf : List Byte}
    (h : checkComplete buf lastLen = .error parseError) (more : List Byte) :
    ¬ Paired (buf ++ more) := by
  unfold checkComplete at h
  split at h
  · cases hfound : isComplete buf lastLen with
    | ok found => rw [hfound] at h; cases h
    | error e =>
        rw [hfound] at h
        cases h
        unfold isComplete at hfound
        split at hfound
        · exact not_paired_of_isCompleteFrom hfound more
        · intro hpaired
          refine not_paired_of_isCompleteFrom hfound more ?_
          rw [← List.take_append_drop (lastLen - 3) buf, List.append_assoc] at hpaired
          exact hpaired.of_append
  · cases h

/-! ## A parser of terminated messages, called again -/

section Again

variable {α : Type*} {P : List Byte → Except ℤ α} {consumed : α → ℕ} {w : List Byte}

/-- **Nothing is lost.** -/
theorem again_ok_iff (hP : Decides partialRequest P consumed)
    (hterm : ∀ w r, P w = .ok r → Terminated (w.take (consumed r)))
    (hw : ∀ r, P w ≠ .ok r) (x : List Byte) (r : α) :
    ((checkComplete (w ++ x) w.length).bind fun _ => P (w ++ x)) = .ok r ↔
      P (w ++ x) = .ok r := by
  constructor
  · intro h
    obtain ⟨-, -, h⟩ := bind_ok h
    exact h
  · intro h
    have hlonger : w.length < consumed r := by
      by_contra hle
      have hfront := hP.take_of_ok h w.length
      rw [List.take_left, if_neg hle] at hfront
      exact hw r hfront
    have htext := hterm _ r h
    have hlength : ((w ++ x).take (consumed r)).length = consumed r := by
      rw [List.length_take, Nat.min_eq_left (hP.front _ r h).1]
    have hcheck : checkComplete ((w ++ x).take (consumed r) ++ (w ++ x).drop (consumed r))
        w.length = .ok () := checkComplete_of_terminated htext (by omega) _
    rw [List.take_append_drop] at hcheck
    rw [hcheck]
    exact h

/-- **Nothing is rejected too early**, either. -/
theorem again_error (hP : Decides partialRequest P consumed)
    (hterm : ∀ w r, P w = .ok r → Terminated (w.take (consumed r)))
    (hw : ∀ r, P w ≠ .ok r) {x : List Byte}
    (h : ((checkComplete (w ++ x) w.length).bind fun _ => P (w ++ x)) = .error parseError)
    (more : List Byte) (r : α) : P (w ++ x ++ more) ≠ .ok r := by
  intro hok
  by_cases hall : consumed r ≤ (w ++ x).length
  · -- the message was there already, and was accepted
    have hfront := hP.take_of_ok hok (w ++ x).length
    rw [List.take_left, if_neg (Nat.not_lt.mpr hall)] at hfront
    rw [(again_ok_iff hP hterm hw x r).mpr hfront] at h
    cases h
  · cases hcheck : checkComplete (w ++ x) w.length with
    | ok u =>
        rw [hcheck] at h
        have hstays := hP.stays more (w := w ++ x) (by
          intro hnotYet
          simp only [Except.bind, hnotYet] at h
          cases h)
        rw [hok] at hstays
        simp only [Except.bind, ← hstays] at h
        cases h
    | error e =>
        rw [hcheck] at h
        cases h
        have htext := (hterm _ r hok).paired
        rw [List.take_append, List.take_of_length_le (Nat.le_of_not_le hall)] at htext
        exact not_paired_of_checkComplete hcheck _ htext

end Again

/-! ## Messages are terminated -/

theorem ne_cr_of_isControl {c : Byte} (h : isControl c = false) : c ≠ 13 := by
  rintro rfl
  cases h

theorem Content.paired (t : Content) : Paired t.bytes :=
  paired_of_ne fun c hc => ne_cr_of_isControl (t.isControl c hc)

theorem Token.paired (t : Token) : Paired t.bytes :=
  paired_of_ne fun c hc => ne_of_tokenChar (t.chars c hc) (by decide)

theorem paired_spaces (n : ℕ) : Paired (List.replicate n 32) :=
  paired_of_ne fun c hc => by rw [List.eq_of_mem_replicate hc]; decide

theorem HeaderText.paired (line : HeaderText) : Paired line.render := by
  cases line with
  | field name blanks content eol hblanks _ =>
      have hcolon : Paired [58] :=
        paired_of_ne fun c hc => by rw [List.mem_singleton.mp hc]; decide
      have hpaired : Paired blanks :=
        paired_of_ne fun c hc => ne_cr_of_isControl (isControl_of_isBlank (hblanks c hc))
      exact name.paired.append (hcolon.append
        (hpaired.append (content.paired.append eol.paired)))
  | fold content eol _ => exact content.paired.append eol.paired

theorem HeaderText.exists_lineEnd (line : HeaderText) :
    ∃ pre, ∃ e : LineEnd, line.render = pre ++ e.bytes := by
  cases line with
  | field name blanks content eol _ _ =>
      exact ⟨name.bytes ++ 58 :: (blanks ++ content.bytes), eol, by simp [HeaderText.render]⟩
  | fold content eol _ => exact ⟨content.bytes, eol, rfl⟩

theorem terminated_lines (lines : List HeaderText) (e last : LineEnd) :
    Terminated (e.bytes ++ (HeaderText.renderLines lines ++ last.bytes)) := by
  induction lines generalizing e with
  | nil => exact ⟨e.paired.append last.paired, [], e, last, rfl⟩
  | cons line lines ih =>
      obtain ⟨pre, e', hline⟩ := line.exists_lineEnd
      obtain ⟨hpaired, pre', d, d', htext⟩ := ih e'
      refine ⟨?_, e.bytes ++ (pre ++ pre'), d, d', ?_⟩
      · rw [HeaderText.renderLines_cons, List.append_assoc]
        exact e.paired.append (line.paired.append hpaired.of_append)
      · rw [HeaderText.renderLines_cons, hline]
        simp only [List.append_assoc] at htext ⊢
        rw [htext]

theorem terminated_headers {maxHeaders : ℕ} (e : LineEnd) (t : HeadersText maxHeaders) :
    Terminated (e.bytes ++ t.render) :=
  terminated_lines t.lines e t.last

theorem paired_versionText (d : Fin 10) : Paired (versionText d) := by
  have hdigit : digit d ≠ 13 := by
    revert d
    decide
  refine paired_of_ne ?_
  simp [versionText, hdigit]

theorem Path.paired (t : Path) : Paired t.bytes :=
  paired_of_ne fun c hc h => by
    have hlow := (t.chars c hc).1
    rw [h] at hlow
    exact absurd hlow (by decide)

theorem terminated_request {maxHeaders : ℕ} (t : RequestText maxHeaders) :
    Terminated t.render := by
  have hfront : Paired t.front := by
    unfold RequestText.front
    cases t.emptyLine with
    | none => trivial
    | some e => exact e.paired
  have hline : t.render = t.front ++ (t.method.bytes ++ (spaces t.gap ++ (t.path.bytes ++
      (spaces t.gap' ++ (versionText t.minorVersion ++ (t.eol.bytes ++ t.headers.render)))))) := by
    simp [RequestText.render, RequestText.requestLine]
  rw [hline]
  exact .prepend hfront (.prepend t.method.paired (.prepend (paired_spaces _)
    (.prepend t.path.paired (.prepend (paired_spaces _) (.prepend (paired_versionText _)
      (terminated_headers t.eol t.headers))))))

theorem terminated_response {maxHeaders : ℕ} (t : ResponseText maxHeaders) :
    Terminated t.render := by
  have hcode : Paired t.codeText := by
    refine paired_of_ne ?_
    have hdigit : ∀ d : Fin 10, digit d ≠ 13 := by decide
    simp [ResponseText.codeText, hdigit]
  have hmsg : Paired t.msg := paired_of_ne fun c hc => ne_cr_of_isControl (t.plain c hc)
  have hline : t.render = versionText t.minorVersion ++ (spaces t.gap ++ (t.codeText ++
      (List.replicate t.gap' 32 ++ (t.msg ++ (t.eol.bytes ++ t.headers.render))))) := by
    simp [ResponseText.render, ResponseText.statusLine, ResponseText.reason]
  rw [hline]
  exact .prepend (paired_versionText _) (.prepend (paired_spaces _) (.prepend hcode
    (.prepend (paired_spaces _) (.prepend hmsg (terminated_headers t.eol t.headers)))))

end Pico

open Pico

/-! ## The two parsers -/

/-- **A request asked for again.** When the input of the last call was not an
accepted request, the call with its length accepts what a first call on the
whole input accepts, with the same result; and when it reports a syntax error,
no continuation of the input would ever be accepted. -/
theorem phrParseRequestAgain_iff (maxHeaders : ℕ) (w x : List Byte)
    (hw : ∀ r, phrParseRequest w maxHeaders ≠ .ok r) :
    (∀ r, phrParseRequestAgain (w ++ x) maxHeaders w.length = .ok r ↔
      phrParseRequest (w ++ x) maxHeaders = .ok r) ∧
    (phrParseRequestAgain (w ++ x) maxHeaders w.length = .error parseError →
      ∀ more r, phrParseRequest (w ++ x ++ more) maxHeaders ≠ .ok r) := by
  have hterm : ∀ w r, phrParseRequest w maxHeaders = .ok r →
      Terminated (w.take r.consumed.toNat) := by
    intro w r hr
    obtain ⟨t, rest, rfl⟩ := exists_requestText hr
    rw [phrParseRequest_render] at hr
    cases hr
    simpa [RequestText.locate] using terminated_request t
  exact ⟨again_ok_iff (phrParseRequest_decides maxHeaders) hterm hw x,
    again_error (phrParseRequest_decides maxHeaders) hterm hw⟩

/-- `GET / HTTP/1.0` and one line end. -/
def unfinishedGet : List Byte := [71, 69, 84, 32, 47, 32, 72, 84, 84, 80, 47, 49, 46, 48, 10]

theorem phrParseRequestAgain_get :
    (∀ r, phrParseRequestAgain (unfinishedGet ++ [10]) 20 unfinishedGet.length = .ok r ↔
      phrParseRequest (unfinishedGet ++ [10]) 20 = .ok r) ∧
    (phrParseRequestAgain (unfinishedGet ++ [10]) 20 unfinishedGet.length = .error parseError →
      ∀ more r, phrParseRequest (unfinishedGet ++ [10] ++ more) 20 ≠ .ok r) :=
  phrParseRequestAgain_iff 20 unfinishedGet [10] (fun r h => by
    have hnotYet : phrParseRequest unfinishedGet 20 = .error partialRequest := by decide
    rw [hnotYet] at h
    cases h)

/-- **A response asked for again**, likewise. -/
theorem phrParseResponse_again_iff (maxHeaders : ℕ) (w x : List Byte)
    (hw : ∀ r, phrParseResponse w maxHeaders 0 ≠ .ok r) :
    (∀ r, phrParseResponse (w ++ x) maxHeaders w.length = .ok r ↔
      phrParseResponse (w ++ x) maxHeaders 0 = .ok r) ∧
    (phrParseResponse (w ++ x) maxHeaders w.length = .error parseError →
      ∀ more r, phrParseResponse (w ++ x ++ more) maxHeaders 0 ≠ .ok r) := by
  have hterm : ∀ (w : List Byte) (r : PhrResponse), parseResponse w.length maxHeaders w = .ok r →
      Terminated (w.take r.consumed.toNat) := by
    intro w r hr
    obtain ⟨t, rest, rfl⟩ := exists_responseText hr
    rw [parseResponse_render] at hr
    cases hr
    simpa [ResponseText.locate] using terminated_response t
  exact ⟨again_ok_iff (parseResponse_decides maxHeaders) hterm hw x,
    again_error (parseResponse_decides maxHeaders) hterm hw⟩

/-- `HTTP/1.0 200` and one line end. -/
def unfinishedResponse : List Byte := [72, 84, 84, 80, 47, 49, 46, 48, 32, 50, 48, 48, 13, 10]

theorem phrParseResponse_again_ok :
    (∀ r, phrParseResponse (unfinishedResponse ++ [10]) 20 unfinishedResponse.length = .ok r ↔
      phrParseResponse (unfinishedResponse ++ [10]) 20 0 = .ok r) ∧
    (phrParseResponse (unfinishedResponse ++ [10]) 20 unfinishedResponse.length =
      .error parseError →
      ∀ more r, phrParseResponse (unfinishedResponse ++ [10] ++ more) 20 0 ≠ .ok r) :=
  phrParseResponse_again_iff 20 unfinishedResponse [10] (fun r h => by
    have hnotYet : phrParseResponse unfinishedResponse 20 0 = .error partialRequest := by decide
    rw [hnotYet] at h
    cases h)

end Zroxy
