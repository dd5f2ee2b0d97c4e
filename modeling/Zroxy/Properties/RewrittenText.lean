import Zroxy.Properties.ParserVerdicts
import Zroxy.Properties.RewriteBytes

/-!
# The text of a rewritten request

A request is written as a `RequestText`. The rewriting takes the first header line
whose name begins with that of the Host header and gives it the new value, so it
turns the text into another (`HostLine.rewritten`). The number of bytes sent stays
what it was. The new text therefore loses its last bytes when it is longer, and
when it is shorter the last bytes of the old one stand behind it once more
(`overlaid`).

The backend is sent a complete request only if what is missing in the value is
there behind the request (`hostRewritten_verdict`).
-/

namespace Zroxy

open OffsetMemory Runs Pico Incremental

/-! ## Lists -/

theorem prefix_append_cons_iff {α : Type*} {c : α} {xs token rest : List α} (hc : c ∉ xs) :
    xs <+: token ++ c :: rest ↔ xs <+: token := by
  constructor
  · intro hprefix
    have htoken : token ++ [c] <+: token ++ c :: rest := by simp
    rcases List.prefix_or_prefix_of_prefix hprefix htoken with h | h
    · rcases List.prefix_concat_iff.mp h with rfl | h
      · exact absurd (by simp) hc
      · exact h
    · exact absurd (h.subset (by simp)) hc
  · exact fun h => h.trans (List.prefix_append _ _)

/-! ## Header lines in memory -/

namespace Pico.HeaderText

/-- The name of the line begins with that of the Host header. -/
def IsHost : HeaderText → Prop
  | .field name .. => hostHeader.name <+: name.bytes
  | .fold .. => False

theorem locateLines_append (off : ℤ) (pre post : List HeaderText) :
    locateLines off (pre ++ post) =
      locateLines off pre ++ locateLines (off + (renderLines pre).length) post := by
  induction pre generalizing off with
  | nil => simp [locateLines]
  | cons line pre ih =>
      rw [List.cons_append, locateLines, ih, locateLines, List.cons_append, renderLines_cons,
        List.length_append]
      push_cast
      rw [add_assoc]

theorem renderLines_append (pre post : List HeaderText) :
    renderLines (pre ++ post) = renderLines pre ++ renderLines post :=
  List.flatMap_append

variable {m : Mem Byte} {off size : ℤ} {line : HeaderText}

theorem selected_iff (hfield : line.IsField)
    (hreads : window m off line.render.length = line.render) :
    Look.selected hostHeader ⟨m, line.locate off⟩ = true ↔ line.IsHost := by
  cases line with
  | fold content eol start => exact hfield.elim
  | field name blanks content eol blank start =>
      have hnul : (0 : Byte) ∉ hostHeader.name := by decide
      have hcolon : (58 : Byte) ∉ hostHeader.name := by decide
      rw [Look.selected_iff]
      show compareName m hostHeader (some off) = .ok 0 ↔ hostHeader.name <+: name.bytes
      rw [compareName_some_iff hnul, Begins]
      have hword : hostHeader.name.length ≠ wordSize := by decide
      rw [or_iff_right hword]
      -- both the name looked for and the line begin the bytes at the name pointer
      obtain ⟨text, htext⟩ : ∃ text, window m off (hostHeader.name.length +
          (HeaderText.field name blanks content eol blank start).render.length) =
            name.bytes ++ 58 :: text := by
        have hprefix := prefix_window m off (Nat.le_add_left
          (HeaderText.field name blanks content eol blank start).render.length
          hostHeader.name.length)
        rw [hreads] at hprefix
        obtain ⟨tail, htail⟩ := hprefix
        refine ⟨blanks ++ (content.bytes ++ eol.bytes) ++ tail, ?_⟩
        rw [← htail]
        simp [render]
      rw [← prefix_append_cons_iff hcolon, ← htext, List.prefix_iff_eq_take,
        window_take _ _ (Nat.le_add_right _ _)]
      exact eq_comm

theorem locate_name (hfield : line.IsField) : (line.locate off).name = some off := by
  cases line with
  | fold content eol start => exact hfield.elim
  | field => rfl

theorem modifyEntries_locateLines {pre : List HeaderText} {hs : List PhrHeader}
    (hpre : ∀ line ∈ pre, line.IsField ∧ ¬ line.IsHost)
    (hreads : window m off (renderLines pre).length = renderLines pre) :
    modifyEntries size hostHeader m (locateLines off pre ++ hs) =
      modifyEntries size hostHeader m hs := by
  induction pre generalizing off with
  | nil => rfl
  | cons line pre ih =>
      obtain ⟨⟨hfield, hnot⟩, hpre⟩ := List.forall_mem_cons.mp hpre
      rw [renderLines_cons, List.length_append, window_add] at hreads
      obtain ⟨hline, hlines⟩ := List.append_inj hreads (window_length _ _ _)
      have hunfound : Look.selected hostHeader ⟨m, line.locate off⟩ = false :=
        Bool.eq_false_iff.mpr (mt (selected_iff hfield hline).mp hnot)
      have hname : (line.locate off).name ≠ none := by simp [locate_name hfield]
      obtain ⟨order, hok, hne⟩ := compareName_of_not_selected hname hunfound
      rw [locateLines, List.cons_append, modifyEntries, hok]
      simp only [Except.bind, if_pos hne]
      exact ih hpre hlines

theorem name_of_mem_locateLines {lines : List HeaderText} {e : PhrHeader}
    (hfields : ∀ line ∈ lines, line.IsField) (he : e ∈ locateLines off lines) :
    ∃ k, e.name = some k ∧ off ≤ k ∧ k + 3 ≤ off + (renderLines lines).length := by
  induction lines generalizing off with
  | nil => exact absurd he List.not_mem_nil
  | cons line lines ih =>
      obtain ⟨hfield, hfields⟩ := List.forall_mem_cons.mp hfields
      rw [renderLines_cons, List.length_append]
      rcases List.mem_cons.mp he with rfl | he
      · refine ⟨off, locate_name hfield, le_rfl, ?_⟩
        cases line with
        | fold content eol start => exact hfield.elim
        | field name blanks content eol blank start =>
            have hname := List.length_pos_iff.mpr name.ne_nil
            have heol : 1 ≤ eol.bytes.length := by cases eol <;> decide
            simp only [render, List.length_append, List.length_cons]
            omega
      · obtain ⟨k, hname, hle, hend⟩ := ih hfields he
        exact ⟨k, hname, by omega, by push_cast; omega⟩

end Pico.HeaderText

/-! ## Requests in memory -/

theorem window_middle {m : Mem Byte} {a b c : List Byte}
    (hm : window m 0 (a ++ (b ++ c)).length = a ++ (b ++ c)) :
    window m a.length b.length = b := by
  rw [List.length_append, List.length_append, window_add, window_add, zero_add] at hm
  obtain ⟨-, hm⟩ := List.append_inj hm (window_length _ _ _)
  exact (List.append_inj hm (window_length _ _ _)).1

namespace RequestText

variable {maxHeaders : ℕ} {t : RequestText maxHeaders} {rest : List Byte} {m : Mem Byte}

theorem hostRewritten_render (t : RequestText maxNumHeaders) (rest : List Byte) :
    ∃ m, window m 0 (t.render ++ rest).length = t.render ++ rest ∧
      hostRewritten (t.render ++ rest) =
        (modifyEntries (t.render ++ rest).length hostHeader m t.locate.headers).map
          (window · 0 (t.render ++ rest).length) := by
  have hparse : phrParseRequest (requestOf (t.render ++ rest)).bytes maxNumHeaders =
      .ok t.locate := by
    rw [requestOf_bytes]
    exact phrParseRequest_render t rest
  have hpos : 0 < t.locate.consumed := by
    have hmethod := List.length_pos_iff.mpr t.method.ne_nil
    show (0 : ℤ) < t.render.length
    rw [render, requestLine]
    simp only [List.length_append]
    omega
  obtain ⟨-, hown⟩ := rewriteHost_parsed hparse hpos (Int.natCast_nonneg _)
  exact ⟨_, requestOf_bytes (t.render ++ rest), hown⟩

theorem modifyEntries_front {pre post : List HeaderText} (hlines : t.headers.lines = pre ++ post)
    (hpre : ∀ line ∈ pre, line.IsField ∧ ¬ line.IsHost)
    (hm : window m 0 (t.render ++ rest).length = t.render ++ rest) (size : ℤ) :
    modifyEntries size hostHeader m t.locate.headers =
      modifyEntries size hostHeader m (HeaderText.locateLines (t.front.length +
        t.requestLine.length + (HeaderText.renderLines pre).length) post) := by
  have htext : t.render ++ rest = (t.front ++ t.requestLine) ++ (HeaderText.renderLines pre ++
      (HeaderText.renderLines post ++ (t.headers.last.bytes ++ rest))) := by
    simp [render, HeadersText.render, hlines, HeaderText.renderLines_append]
  have hreads : window m (t.front.length + t.requestLine.length : ℤ)
      (HeaderText.renderLines pre).length = HeaderText.renderLines pre := by
    rw [htext] at hm
    simpa using window_middle hm
  show modifyEntries size hostHeader m (HeaderText.locateLines _ t.headers.lines) = _
  rw [hlines, HeaderText.locateLines_append]
  exact HeaderText.modifyEntries_locateLines hpre hreads

/-- No line is found, and none continues another. -/
def Hostless (t : RequestText maxHeaders) : Prop :=
  ∀ line ∈ t.headers.lines, line.IsField ∧ ¬ line.IsHost

/-- A line that continues another comes before any line that is found. -/
def FoldedFirst (t : RequestText maxHeaders) : Prop :=
  ∃ pre fold post, t.headers.lines = pre ++ fold :: post ∧
    (∀ line ∈ pre, line.IsField ∧ ¬ line.IsHost) ∧ ¬ fold.IsField

theorem Hostless.hostRewritten {t : RequestText maxNumHeaders} (h : t.Hostless)
    (rest : List Byte) : hostRewritten (t.render ++ rest) = .ok (t.render ++ rest) := by
  obtain ⟨m, hm, hrewritten⟩ := t.hostRewritten_render rest
  rw [hrewritten, modifyEntries_front (List.append_nil _).symm h hm]
  exact congrArg Except.ok hm

/-- The NULL name of the entry is read. -/
theorem FoldedFirst.hostRewritten {t : RequestText maxNumHeaders} (h : t.FoldedFirst)
    (rest : List Byte) : hostRewritten (t.render ++ rest) = .error .nullName := by
  obtain ⟨pre, fold, post, hlines, hpre, hfold⟩ := h
  obtain ⟨m, hm, hrewritten⟩ := t.hostRewritten_render rest
  rw [hrewritten, modifyEntries_front hlines hpre hm]
  cases fold with
  | field => exact absurd trivial hfold
  | fold content eol start => rfl

end RequestText

/-! ## The line that is found -/

/-- The header line that the rewriting finds: the first whose name begins with
that of the Host header, with no line in front of it that continues another. -/
structure HostLine {maxHeaders : ℕ} (t : RequestText maxHeaders) where
  pre : List HeaderText
  name : Token
  blanks : List Byte
  content : Content
  eol : LineEnd
  blank : ∀ c ∈ blanks, isBlank c = true
  start : ∀ c ∈ content.bytes.head?, isBlank c = false
  post : List HeaderText
  lines : t.headers.lines = pre ++ .field name blanks content eol blank start :: post
  first : ∀ line ∈ pre, line.IsField ∧ ¬ line.IsHost
  found : hostHeader.name <+: name.bytes

namespace HostLine

variable {maxHeaders : ℕ} {t : RequestText maxHeaders} (h : HostLine t)

def newContent : Content where
  value := hostHeader.value
  trailing := h.content.trailing
  plain := fun c hc => (hostHeader_plain c hc).1
  trimmed := fun c hc => (hostHeader_plain c (List.mem_of_getLast? hc)).2
  blank := h.content.blank

def newLine : HeaderText :=
  .field h.name h.blanks h.newContent h.eol h.blank (by
    intro c hc
    obtain rfl : (113 : Byte) = c := Option.some_inj.mp hc
    rfl)

def rewritten : RequestText maxHeaders :=
  { t with headers := { t.headers with
      lines := h.pre ++ h.newLine :: h.post
      first := by
        have hfirst := t.headers.first
        rw [h.lines] at hfirst
        cases hpre : h.pre with
        | nil => exact fun line hline => (Option.some_inj.mp hline) ▸ trivial
        | cons line pre =>
            rw [hpre] at hfirst
            exact hfirst
      fits := by
        have hfits := t.headers.fits
        rw [h.lines] at hfits
        simpa using hfits } }

def before : List Byte :=
  t.front ++ (t.requestLine ++ (HeaderText.renderLines h.pre ++ (h.name.bytes ++ 58 :: h.blanks)))

def lineRest : List Byte := h.content.trailing ++ h.eol.bytes

def behind : List Byte :=
  h.lineRest ++ (HeaderText.renderLines h.post ++ t.headers.last.bytes)

theorem render_eq : t.render = h.before ++ (h.content.value ++ h.behind) := by
  simp [RequestText.render, HeadersText.render, h.lines, HeaderText.renderLines_append,
    HeaderText.render, Content.bytes, before, lineRest, behind]

theorem rewritten_render :
    h.rewritten.render = h.before ++ (hostHeader.value ++ h.behind) := by
  simp [RequestText.render, RequestText.front, RequestText.requestLine, HeadersText.render,
    rewritten, newLine, newContent, HeaderText.renderLines_append, HeaderText.render,
    Content.bytes, before, lineRest, behind]

def again : HostLine h.rewritten :=
  { h with
    content := h.newContent
    start := by
      intro c hc
      obtain rfl : (113 : Byte) = c := Option.some_inj.mp hc
      rfl
    lines := rfl }

theorem again_rewritten : h.again.rewritten = h.rewritten := rfl

/-- The bytes sent for the request, with `rest` behind it. -/
def sent (rest : List Byte) : List Byte := overlaid (h.rewritten.render ++ rest) (t.render ++ rest)

/-- None of the lines, which come first behind this one, is found at its old place
in the new bytes. -/
def Unfound (rest : List Byte) (lines : List HeaderText) : Prop :=
  ∀ e ∈ HeaderText.locateLines (t.render.length -
      (HeaderText.renderLines h.post ++ t.headers.last.bytes).length : ℤ) lines,
    ∀ k, e.name = some k → ¬ hostHeader.name <+: (h.sent rest).drop k.toNat

/-- The old value is as long as the new one, which ends the loop, or no line
behind continues another and none is found. -/
def Settles (rest : List Byte) : Prop :=
  h.content.value.length = hostHeader.value.length ∨
    (∀ line ∈ h.post, line.IsField) ∧ h.Unfound rest h.post

/-- The loop goes on, and behind this line there is one that continues another
before any that is found. -/
def FoldsBehind (rest : List Byte) : Prop :=
  h.content.value.length ≠ hostHeader.value.length ∧
    ∃ mid fold post, h.post = mid ++ fold :: post ∧ (∀ line ∈ mid, line.IsField) ∧
      ¬ fold.IsField ∧ h.Unfound rest mid

/-! ## The loop on the text -/

variable {rest : List Byte} {m : Mem Byte}

theorem window_around (hm : window m 0 (t.render ++ rest).length = t.render ++ rest) :
    window m 0 h.before.length = h.before ∧
      window m (h.before.length + h.content.value.length : ℤ) (h.behind ++ rest).length =
        h.behind ++ rest := by
  have htext : t.render ++ rest = h.before ++ (h.content.value ++ (h.behind ++ rest)) := by
    simp [h.render_eq]
  rw [htext, List.length_append, List.length_append, window_add, window_add, zero_add] at hm
  obtain ⟨hbefore, hm⟩ := List.append_inj hm (window_length _ _ _)
  obtain ⟨-, hbehind⟩ := List.append_inj hm (window_length _ _ _)
  exact ⟨hbefore, hbehind⟩

theorem window_splice_text (hm : window m 0 (t.render ++ rest).length = t.render ++ rest) :
    window (splice m h.before.length h.content.value.length hostHeader.value
        (t.render ++ rest).length) 0 (t.render ++ rest).length = h.sent rest := by
  obtain ⟨hbefore, hbehind⟩ := h.window_around hm
  have hlen : (t.render ++ rest).length =
      h.before.length + h.content.value.length + (h.behind ++ rest).length := by
    simp [h.render_eq, Nat.add_assoc]
  have hnew : h.before ++ hostHeader.value ++ (h.behind ++ rest) = h.rewritten.render ++ rest := by
    simp [h.rewritten_render]
  rw [window_splice_overlaid (zero_add _) (by rw [hlen]; push_cast; ring) hlen, hbefore, hbehind,
    hnew, hm]
  rfl

theorem locate_line : HeaderText.locateLines (t.front.length + t.requestLine.length +
      (HeaderText.renderLines h.pre).length)
        (.field h.name h.blanks h.content h.eol h.blank h.start :: h.post) =
      { name := some (t.front.length + t.requestLine.length +
          (HeaderText.renderLines h.pre).length)
        nameLen := h.name.bytes.length
        value := h.before.length
        valueLen := h.content.value.length } ::
      HeaderText.locateLines (t.render.length -
        (HeaderText.renderLines h.post ++ t.headers.last.bytes).length : ℤ) h.post := by
  have hpost : ((t.front.length + t.requestLine.length : ℤ) +
      (HeaderText.renderLines h.pre).length) + (HeaderText.field h.name h.blanks h.content h.eol
        h.blank h.start).render.length =
      t.render.length - (HeaderText.renderLines h.post ++ t.headers.last.bytes).length := by
    rw [h.render_eq]
    simp [before, behind, lineRest, HeaderText.render, Content.bytes]
    ring
  have hvalue : ((t.front.length + t.requestLine.length : ℤ) +
      (HeaderText.renderLines h.pre).length) + h.name.bytes.length + 1 + h.blanks.length =
      h.before.length := by
    simp [before]
    ring
  rw [HeaderText.locateLines, hpost, HeaderText.locate, hvalue]

theorem window_name (hm : window m 0 (t.render ++ rest).length = t.render ++ rest) :
    window m (t.front.length + t.requestLine.length +
      (HeaderText.renderLines h.pre).length : ℤ) h.name.bytes.length = h.name.bytes := by
  have htext : t.render ++ rest = (t.front ++ (t.requestLine ++ HeaderText.renderLines h.pre)) ++
      (h.name.bytes ++ 58 :: (h.blanks ++ (h.content.value ++ (h.behind ++ rest)))) := by
    simp [h.render_eq, before]
  rw [htext] at hm
  simpa [add_assoc] using window_middle hm

theorem modifyEntries_behind {n : ℕ} (hn : n = (t.render ++ rest).length)
    (hm : window m 0 n = h.sent rest) {mid : List HeaderText} (hmid : mid <+: h.post)
    (hfields : ∀ line ∈ mid, line.IsField) {lo : ℤ} (hlo : lo = t.render.length -
      (HeaderText.renderLines h.post ++ t.headers.last.bytes).length)
    (hunfound : h.Unfound rest mid) (hs : List PhrHeader) :
    modifyEntries n hostHeader m (HeaderText.locateLines lo mid ++ hs) =
      modifyEntries n hostHeader m hs := by
  apply modifyEntries_pass
  intro e he
  obtain ⟨k, hname, hk, hend⟩ := HeaderText.name_of_mem_locateLines hfields he
  refine ⟨by simp [hname], Bool.eq_false_iff.mpr (mt Look.selected_iff.mp ?_)⟩
  show compareName m hostHeader e.name ≠ .ok 0
  have hnul : (0 : Byte) ∉ hostHeader.name := by decide
  have hword : hostHeader.name.length ≠ wordSize := by decide
  rw [hname, ne_eq, compareName_some_iff hnul, Begins, or_iff_right hword]
  intro hbegins
  -- the four bytes at the name are inside the request
  have hbehind : (HeaderText.renderLines h.post ++ t.headers.last.bytes).length ≤
      t.render.length := by
    rw [h.render_eq]
    simp [behind]
    omega
  have hlines : (HeaderText.renderLines mid).length ≤ (HeaderText.renderLines h.post).length := by
    obtain ⟨post, hpost⟩ := hmid
    rw [← hpost, HeaderText.renderLines_append, List.length_append]
    exact Nat.le_add_right _ _
  have hlast : 1 ≤ t.headers.last.bytes.length := by cases t.headers.last <;> decide
  have hlength : n = t.render.length + rest.length := by rw [hn, List.length_append]
  have hfour : hostHeader.name.length = 4 := rfl
  rw [hlo] at he
  rw [List.length_append] at hlo hbehind
  obtain ⟨j, rfl⟩ := Int.eq_ofNat_of_zero_le (by omega : 0 ≤ k)
  refine hunfound e he j hname ?_
  rw [Int.toNat_natCast, ← hm, window_drop _ _ (by omega), zero_add, ← hbegins]
  exact prefix_window _ _ (by omega)

theorem hostRewritten_turn {t : RequestText maxNumHeaders} (h : HostLine t) (rest : List Byte) :
    ∃ m, window m 0 (t.render ++ rest).length = h.sent rest ∧
      hostRewritten (t.render ++ rest) =
        (if h.content.value.length = hostHeader.value.length then Except.ok m
          else modifyEntries (t.render ++ rest).length hostHeader m
            (HeaderText.locateLines (t.render.length -
              (HeaderText.renderLines h.post ++ t.headers.last.bytes).length : ℤ) h.post)).map
          (window · 0 (t.render ++ rest).length) := by
  obtain ⟨m, hm, hrewritten⟩ := t.hostRewritten_render rest
  refine ⟨_, h.window_splice_text hm, ?_⟩
  rw [hrewritten, RequestText.modifyEntries_front h.lines h.first hm, h.locate_line]
  have hfound : compareName m hostHeader (some (t.front.length + t.requestLine.length +
      (HeaderText.renderLines h.pre).length)) = .ok 0 := by
    refine compareName_of_window ?_
    rw [← window_take _ _ h.found.length_le, h.window_name hm]
    exact (List.prefix_iff_eq_take.mp h.found).symm
  rw [modifyEntries, hfound]
  simp only [Except.bind, ne_eq, not_true_eq_false, if_false]
  rw [replaceValue_eq_splice]

end HostLine

/-- **What is sent for a request with a Host line**: the request with the new
value in that line and with what is behind it, written over the old bytes. -/
theorem hostRewritten_eq_sent {t : RequestText maxNumHeaders} (h : HostLine t)
    (rest : List Byte) (hsettles : h.Settles rest) :
    hostRewritten (t.render ++ rest) = .ok (h.sent rest) := by
  obtain ⟨m, hm, hrewritten⟩ := h.hostRewritten_turn rest
  rw [hrewritten, ← hm]
  split
  · rfl
  · rename_i hlen
    obtain ⟨hfields, hunfound⟩ := hsettles.resolve_left hlen
    have hpass := h.modifyEntries_behind rfl hm List.prefix_rfl hfields rfl hunfound []
    rw [List.append_nil] at hpass
    rw [hpass]
    rfl

/-- The NULL name of a line behind is read, when the loop comes as far. -/
theorem HostLine.FoldsBehind.hostRewritten {t : RequestText maxNumHeaders} {h : HostLine t}
    {rest : List Byte} (hfolds : h.FoldsBehind rest) :
    hostRewritten (t.render ++ rest) = .error .nullName := by
  obtain ⟨hlen, mid, fold, post, hpost, hfields, hfold, hunfound⟩ := hfolds
  obtain ⟨m, hm, hrewritten⟩ := h.hostRewritten_turn rest
  have hmid : mid <+: h.post := ⟨fold :: post, hpost.symm⟩
  obtain ⟨lo, hlo⟩ : ∃ lo : ℤ, lo = t.render.length -
    (HeaderText.renderLines h.post ++ t.headers.last.bytes).length := ⟨_, rfl⟩
  rw [hrewritten, if_neg hlen, ← hlo, hpost, HeaderText.locateLines_append,
    h.modifyEntries_behind rfl hm hmid hfields hlo hunfound]
  cases fold with
  | field => exact absurd trivial hfold
  | fold content eol start => rfl

/-- The loop passes over all lines, comes to one that continues another, or finds
one. -/
theorem RequestText.exists_line {maxHeaders : ℕ} (t : RequestText maxHeaders) :
    t.Hostless ∨ t.FoldedFirst ∨ Nonempty (HostLine t) := by
  classical
  cases hfirst : t.headers.lines.find? fun line => decide ¬ (line.IsField ∧ ¬ line.IsHost) with
  | none =>
      refine Or.inl fun line hline => ?_
      simpa using List.find?_eq_none.mp hfirst line hline
  | some line =>
      obtain ⟨hline, pre, post, hlines, hpre⟩ := List.find?_eq_some_iff_append.mp hfirst
      have hpassed : ∀ line ∈ pre, line.IsField ∧ ¬ line.IsHost := by
        intro line hmem
        simpa using hpre line hmem
      cases line with
      | fold content eol start => exact Or.inr (Or.inl ⟨pre, _, post, hlines, hpassed, not_false⟩)
      | field name blanks content eol blank start =>
          have hfound : hostHeader.name <+: name.bytes := by
            by_contra hnot
            exact (of_decide_eq_true hline) ⟨trivial, hnot⟩
          exact Or.inr (Or.inr ⟨⟨pre, name, blanks, content, eol, blank, start, post, hlines,
            hpassed, hfound⟩⟩)

/-- **What becomes of the bytes that are offered to the backend.** Bytes that do
not begin with a request, and requests with no line for the Host, are sent as they
are. A line that continues another in front of it makes the proxy read through
NULL. Otherwise the first Host line is given the new value, and that is all if it
settles. A line that continues another behind it makes the proxy read through
NULL if the loop comes as far. -/
theorem hostRewritten_cases (bytes : List Byte) :
    ((∀ (t : RequestText maxNumHeaders) (rest : List Byte), bytes ≠ t.render ++ rest) ∧
        hostRewritten bytes = .ok bytes) ∨
      ∃ (t : RequestText maxNumHeaders) (rest : List Byte), bytes = t.render ++ rest ∧
        (t.Hostless ∧ hostRewritten bytes = .ok bytes ∨
          t.FoldedFirst ∧ hostRewritten bytes = .error .nullName ∨
          Nonempty (HostLine t) ∧ ∀ h : HostLine t,
            (h.Settles rest → hostRewritten bytes = .ok (h.sent rest)) ∧
              (h.FoldsBehind rest → hostRewritten bytes = .error .nullName)) := by
  by_cases hsome : ∃ (t : RequestText maxNumHeaders) (rest : List Byte), bytes = t.render ++ rest
  · obtain ⟨t, rest, rfl⟩ := hsome
    refine Or.inr ⟨t, rest, rfl, ?_⟩
    rcases t.exists_line with hnone | hfold | hfound
    · exact Or.inl ⟨hnone, hnone.hostRewritten rest⟩
    · exact Or.inr (Or.inl ⟨hfold, hfold.hostRewritten rest⟩)
    · exact Or.inr (Or.inr ⟨hfound, fun h =>
        ⟨hostRewritten_eq_sent h rest, fun hfolds => hfolds.hostRewritten⟩⟩)
  · refine Or.inl ⟨fun t rest heq => hsome ⟨t, rest, heq⟩, ?_⟩
    refine (hostRewritten_eq_iff bytes).mpr fun parsed hparsed => ?_
    obtain ⟨t, rest, heq⟩ := exists_requestText hparsed
    exact absurd ⟨t, rest, heq⟩ hsome

/-! ## A request to look at -/

theorem slash_chars : ∀ c ∈ ([47] : List Byte), 32 < c ∧ c ≠ 127 :=
  List.forall_mem_singleton.mpr (by decide)

theorem letter_content :
    (∀ c ∈ ([97] : List Byte), isControl c = false) ∧
      ∀ c ∈ ([97] : List Byte).head?, isBlank c = false := by
  refine ⟨List.forall_mem_singleton.mpr rfl, fun c hc => ?_⟩
  obtain rfl : (97 : Byte) = c := Option.some_inj.mp hc
  rfl

/-- The value `a`. -/
def letterContent : Content where
  value := [97]
  trailing := []
  plain := letter_content.1
  trimmed := letter_content.2
  blank := fun _ hc => absurd hc List.not_mem_nil

/-- The name `Host`. -/
def hostToken : Token where
  bytes := hostHeader.name
  ne_nil := List.cons_ne_nil _ _
  chars := List.all_eq_true.mp rfl

/-- The text of `hostRequest`. -/
def hostText : RequestText maxNumHeaders where
  emptyLine := none
  method := ⟨[71], List.cons_ne_nil _ _, List.all_eq_true.mp rfl⟩
  gap := 0
  path := ⟨[47], List.cons_ne_nil _ _, slash_chars⟩
  gap' := 0
  minorVersion := 0
  eol := .lf
  headers :=
    { lines := [.field hostToken [] letterContent .lf (fun _ hc => absurd hc List.not_mem_nil)
        letter_content.2]
      first := fun _ hline => Option.some_inj.mp hline ▸ trivial
      fits := Nat.succ_le_succ (Nat.zero_le _)
      last := .lf }

example : hostText.render = hostRequest := rfl

def hostTextLine : HostLine hostText where
  pre := []
  name := hostToken
  blanks := []
  content := letterContent
  eol := .lf
  blank := fun _ hc => absurd hc List.not_mem_nil
  start := letter_content.2
  post := []
  lines := rfl
  first := fun _ hline => absurd hline List.not_mem_nil
  found := List.prefix_rfl

theorem hostTextLine_settles (rest : List Byte) : hostTextLine.Settles rest :=
  Or.inr ⟨fun _ hline => absurd hline List.not_mem_nil,
    fun _ he => absurd he List.not_mem_nil⟩

/-! ## The parser on what is sent -/

namespace HostLine

variable {maxHeaders : ℕ} {t : RequestText maxHeaders} (h : HostLine t)

/-- What is missing in the value has to be there behind the request. -/
def Complete (rest : List Byte) : Prop :=
  hostHeader.value.length ≤ h.content.value.length + rest.length

instance (rest : List Byte) : Decidable (h.Complete rest) :=
  inferInstanceAs (Decidable (_ ≤ _))

theorem complete_iff (rest : List Byte) :
    h.Complete rest ↔ h.rewritten.render.length ≤ (t.render ++ rest).length := by
  rw [h.rewritten_render, h.render_eq, Complete]
  simp only [List.length_append]
  omega

/-- If there is enough, the whole of the new request is sent, and something behind
it. -/
theorem sent_complete {rest : List Byte} (hcomplete : h.Complete rest) :
    ∃ tail, h.sent rest = h.rewritten.render ++ tail := by
  have hle := (h.complete_iff rest).mp hcomplete
  refine ⟨rest.take ((t.render ++ rest).length - h.rewritten.render.length) ++
    (t.render ++ rest).drop (h.rewritten.render ++ rest).length, ?_⟩
  rw [sent, overlaid, List.take_append, List.take_of_length_le hle, List.append_assoc]

theorem sent_incomplete {rest : List Byte} (hshort : ¬ h.Complete rest) :
    h.sent rest = h.rewritten.render.take (t.render ++ rest).length ∧
      (t.render ++ rest).length < h.rewritten.render.length := by
  have hlt := not_le.mp (mt (h.complete_iff rest).mpr hshort)
  refine ⟨?_, hlt⟩
  have hdrop : (t.render ++ rest).drop (h.rewritten.render ++ rest).length = [] := by
    refine List.drop_of_length_le (hlt.le.trans ?_)
    rw [List.length_append]
    exact Nat.le_add_right _ _
  rw [sent, overlaid, hdrop, List.append_nil, List.take_append_of_le_length hlt.le]

end HostLine

/-- **What the backend is sent is a request**, exactly if the value that is missing
is made up for by bytes behind the request; otherwise it is the front of one. The
proxy does not change it a second time. -/
theorem hostRewritten_verdict {t : RequestText maxNumHeaders} (h : HostLine t) (rest : List Byte)
    (hsettles : h.Settles rest) :
    ∃ out, hostRewritten (t.render ++ rest) = .ok out ∧
      phrParseRequest out maxNumHeaders =
        (if h.Complete rest then .ok h.rewritten.locate else .error partialRequest) ∧
      hostRewritten out = .ok out := by
  refine ⟨h.sent rest, hostRewritten_eq_sent h rest hsettles, ?_⟩
  by_cases hcomplete : h.Complete rest
  · obtain ⟨tail, htail⟩ := h.sent_complete hcomplete
    rw [if_pos hcomplete, htail]
    refine ⟨phrParseRequest_render h.rewritten tail, ?_⟩
    -- the line that is found has the new value
    rw [hostRewritten_eq_sent h.again tail (Or.inl rfl), HostLine.sent, h.again_rewritten,
      overlaid_self]
  · obtain ⟨hsent, hlt⟩ := h.sent_incomplete hcomplete
    have hwhole : phrParseRequest h.rewritten.render maxNumHeaders = .ok h.rewritten.locate := by
      have hrender := phrParseRequest_render h.rewritten []
      rwa [List.append_nil] at hrender
    have hincomplete : phrParseRequest (h.sent rest) maxNumHeaders = .error partialRequest := by
      rw [hsent]
      have htake := (phrParseRequest_decides maxNumHeaders).take_of_ok hwhole
        (t.render ++ rest).length
      rwa [if_pos] at htake
      exact hlt
    rw [if_neg hcomplete]
    refine ⟨hincomplete, (hostRewritten_eq_iff _).mpr fun parsed hparsed => ?_⟩
    rw [hincomplete] at hparsed
    cases hparsed

/-- `hostRequest` is sent without its last eight bytes. -/
theorem hostText_verdict : ∃ out, hostRewritten (hostText.render ++ []) = .ok out ∧
    phrParseRequest out maxNumHeaders = .error partialRequest ∧ hostRewritten out = .ok out := by
  obtain ⟨out, hsent, hverdict, hagain⟩ :=
    hostRewritten_verdict hostTextLine [] (hostTextLine_settles [])
  rw [if_neg (by decide)] at hverdict
  exact ⟨out, hsent, hverdict, hagain⟩

end Zroxy
