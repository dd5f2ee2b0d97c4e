import Mathlib.Data.List.Induction
import Zroxy.Parsers.HttpParser

/-!
# Where the parser finds things

A request that `phr_parse_request` accepts lies in memory from offset 0 on. Each
line of its header table has its value in front of a line end, blanks between
the two, and no control character in front of that line end; the lines follow
each other, and everything lies inside the request.
-/

namespace Zroxy

open OffsetMemory Runs

namespace Pico

/-! ## The cursor -/

/-- `buf` is what is left, from the cursor on, of the `size` bytes at the start
of `m`. -/
def Reads (m : Mem Byte) (size : ℤ) : List Byte → Prop
  | [] => True
  | c :: buf => m (size - (buf.length + 1)) = c ∧ Reads m size buf

variable {m : Mem Byte} {size : ℤ} {buf rest : List Byte}

theorem Reads.suffix (h : Reads m size buf) (hrest : rest <:+ buf) : Reads m size rest := by
  obtain ⟨pre, rfl⟩ := hrest
  induction pre with
  | nil => exact h
  | cons c pre ih => exact ih h.2

theorem reads_window (m : Mem Byte) (n : ℕ) :
    ∀ off : ℤ, Reads m (off + n) (window m off n) := by
  induction n with
  | zero => exact fun _ => trivial
  | succ n ih =>
      intro off
      have hcons : window m off (n + 1) = m off :: window m (off + 1) n := by
        rw [Nat.add_comm, window_add]
        simp [window]
      rw [hcons]
      have hsize : off + ((n + 1 : ℕ) : ℤ) = off + 1 + n := by omega
      refine ⟨?_, hsize ▸ ih (off + 1)⟩
      congr 1
      simp

/-! ## The separators -/

theorem expectChar_ok {ch : Byte} (h : expectChar ch buf = .ok rest) : buf = ch :: rest := by
  cases buf with
  | nil => cases h
  | cons c buf =>
      simp only [expectChar] at h
      split at h
      · cases h
        rw [eq_of_beq ‹(c == ch) = true›]
      · cases h

theorem expectChars_suffix {chs : List Byte} (h : expectChars chs buf = .ok rest) :
    rest <:+ buf := by
  induction chs generalizing buf with
  | nil =>
      cases h
      exact List.suffix_rfl
  | cons ch chs ih =>
      obtain ⟨buf', hch, h⟩ := bind_ok h
      rw [expectChar_ok hch]
      exact (ih h).trans (List.suffix_cons ch buf')

theorem skipWhile_suffix {p : Byte → Bool} (h : skipWhile p buf = .ok rest) : rest <:+ buf := by
  induction buf with
  | nil => cases h
  | cons c buf ih =>
      unfold skipWhile at h
      split at h
      · exact (ih h).trans (List.suffix_cons c buf)
      · cases h
        exact List.suffix_rfl

theorem advanceToken_suffix (h : advanceToken buf = .ok rest) : rest <:+ buf := by
  induction buf with
  | nil => cases h
  | cons c buf ih =>
      unfold advanceToken at h
      split at h
      · cases h
        exact List.suffix_rfl
      · split at h
        · cases h
        · exact (ih h).trans (List.suffix_cons c buf)

theorem parseToken_suffix {next : Byte} (h : parseToken next buf = .ok rest) :
    rest <:+ buf ∧ rest ≠ [] := by
  induction buf with
  | nil => cases h
  | cons c buf ih =>
      unfold parseToken at h
      split at h
      · cases h
        exact ⟨List.suffix_rfl, List.cons_ne_nil _ _⟩
      · split at h
        · cases h
        · obtain ⟨hsuffix, hne⟩ := ih h
          exact ⟨hsuffix.trans (List.suffix_cons c buf), hne⟩

theorem expectLineEnd_suffix (h : expectLineEnd buf = .ok rest) : rest <:+ buf := by
  cases buf with
  | nil => cases h
  | cons c buf =>
      simp only [expectLineEnd] at h
      split at h
      · rw [expectChar_ok h]
        exact (List.suffix_cons 10 rest).trans (List.suffix_cons c _)
      · split at h
        · cases h
          exact List.suffix_cons c rest
        · cases h

theorem skipEmptyLine_cases (h : skipEmptyLine buf = .ok rest) :
    expectLineEnd buf = .ok rest ∨ rest = buf := by
  cases buf with
  | nil => cases h
  | cons c buf =>
      simp only [skipEmptyLine] at h
      simp only [expectLineEnd]
      split at h
      · exact Or.inl ((if_pos ‹_›).trans h)
      · rw [if_neg ‹_›]
        split at h
        · exact Or.inl ((if_pos ‹_›).trans h)
        · exact Or.inr (Except.ok.inj h).symm

theorem skipEmptyLine_suffix (h : skipEmptyLine buf = .ok rest) : rest <:+ buf := by
  rcases skipEmptyLine_cases h with hend | rfl
  · exact expectLineEnd_suffix hend
  · exact List.suffix_rfl

theorem parseHttpVersion_suffix {v : ℤ} (h : parseHttpVersion buf = .ok (v, rest)) :
    rest <:+ buf := by
  unfold parseHttpVersion at h
  split at h
  · cases h
  · obtain ⟨buf', hchars, h⟩ := bind_ok h
    refine List.IsSuffix.trans ?_ (expectChars_suffix hchars)
    cases buf' with
    | nil => cases h
    | cons c buf' =>
        simp only at h
        split at h
        · cases h
        · cases h
          exact List.suffix_cons c rest

/-! ## Values -/

def isLineEnd (c : Byte) : Bool := c == 13 || c == 10

/-- A control character ends the token, and only a line end does so without an
error. -/
theorem getTokenToEol_control {c : Byte} {t : ℕ} (hc : isControl c = true)
    (h : getTokenToEol (c :: buf) = .ok (t, rest)) :
    t = 0 ∧ rest <:+ buf ∧ isLineEnd c = true := by
  unfold getTokenToEol at h
  rw [if_pos hc] at h
  split at h
  · obtain ⟨buf', hlf, h⟩ := bind_ok h
    cases h
    rw [expectChar_ok hlf]
    exact ⟨rfl, List.suffix_cons 10 rest, by simp [isLineEnd, ‹(c == 13) = true›]⟩
  · split at h
    · cases h
      exact ⟨rfl, List.suffix_rfl, by simp [isLineEnd, ‹(c == 10) = true›]⟩
    · cases h

/-- The token that ends a line: `t` bytes, none of them a control character, and
then the line end. -/
theorem getTokenToEol_ok {t : ℕ} (h : getTokenToEol buf = .ok (t, rest))
    (hbuf : Reads m size buf) :
    rest <:+ buf ∧ t + rest.length < buf.length ∧
      (∀ k : ℤ, size - buf.length ≤ k → k < size - buf.length + t → isControl (m k) = false) ∧
      isLineEnd (m (size - buf.length + t)) = true := by
  induction buf generalizing t with
  | nil => cases h
  | cons c buf ih =>
      obtain ⟨hc, hbuf⟩ := hbuf
      have hhead : m (size - (c :: buf).length) = c := by simpa using hc
      cases hcontrol : isControl c with
      | true =>
          obtain ⟨rfl, hsuffix, hend⟩ := getTokenToEol_control hcontrol h
          have hle := hsuffix.length_le
          refine ⟨hsuffix.trans (List.suffix_cons c buf), ?_, ?_, ?_⟩
          · rw [List.length_cons]
            omega
          · intro k hk hk'
            omega
          · rw [Nat.cast_zero, add_zero, hhead]
            exact hend
      | false =>
          -- one byte more than the token of the tail
          rw [getTokenToEol, if_neg (by simp [hcontrol])] at h
          obtain ⟨⟨t', rest'⟩, hrest, h⟩ := bind_ok h
          cases h
          obtain ⟨hsuffix, hlen, htoken, heol⟩ := ih hrest hbuf
          dsimp only at hlen ⊢
          have hoff : size - ((c :: buf).length : ℤ) = size - buf.length - 1 := by
            simp
            omega
          refine ⟨hsuffix.trans (List.suffix_cons c buf), ?_, ?_, ?_⟩
          · rw [List.length_cons]
            omega
          · intro k hk hk'
            rcases hk.eq_or_lt with hfirst | hlater
            · rw [← hfirst, hhead]
              exact hcontrol
            · exact htoken k (by omega) (by push_cast at hk'; omega)
          · have heq : size - ((c :: buf).length : ℤ) + ((t' + 1 : ℕ) : ℤ) =
                size - buf.length + t' := by
              push_cast
              omega
            rw [heq]
            exact heol

theorem trimmedLength_concat (value : List Byte) (c : Byte) :
    trimmedLength (value ++ [c]) =
      if isBlank c then trimmedLength value else value.length + 1 := by
  unfold trimmedLength
  rw [List.reverse_append, List.reverse_singleton, List.singleton_append, List.dropWhile_cons]
  split <;> simp

/-- Behind the trimmed value there are blanks only. -/
theorem trimmedLength_spec (value : List Byte) :
    trimmedLength value ≤ value.length ∧
      ∀ k, trimmedLength value ≤ k → ∀ hk : k < value.length, isBlank value[k] = true := by
  induction value using List.reverseRecOn with
  | nil => exact ⟨le_refl _, fun _ _ hk => absurd hk (Nat.not_lt_zero _)⟩
  | append_singleton value c ih =>
      obtain ⟨hle, hblank⟩ := ih
      rw [trimmedLength_concat]
      split
      · refine ⟨by simp; omega, fun k hk hk' => ?_⟩
        by_cases hlast : k < value.length
        · rw [List.getElem_append_left hlast]
          exact hblank k hk hlast
        · have hk'' : k = value.length := by
            simp at hk'
            omega
          subst hk''
          simpa using ‹isBlank c = true›
      · refine ⟨by simp, fun k hk hk' => ?_⟩
        simp at hk'
        omega

theorem Reads.getElem (h : Reads m size buf) :
    ∀ k (hk : k < buf.length), m (size - buf.length + k) = buf[k] := by
  induction buf with
  | nil => exact fun k hk => absurd hk (Nat.not_lt_zero _)
  | cons c buf ih =>
      intro k hk
      cases k with
      | zero => simpa using h.1
      | succ k =>
          have hrec := ih h.2 k (by simpa using hk)
          rw [List.getElem_cons_succ, ← hrec]
          congr 1
          push_cast [List.length_cons]
          omega

/-! ## Header lines -/

/-- An entry of the table, its value at `lo` or behind, and the line end that
follows it. -/
structure HeaderAt (m : Mem Byte) (size lo : ℤ) (h : PhrHeader) (eol : ℤ) : Prop where
  name : ∀ n, h.name = some n → 0 ≤ n ∧ n + 4 ≤ size
  lo_le : lo ≤ h.value
  value_le : h.value + h.valueLen ≤ eol
  eol_lt : eol < size
  token : ∀ k, h.value ≤ k → k < eol → isControl (m k) = false
  blanks : ∀ k, h.value + h.valueLen ≤ k → k < eol → isBlank (m k) = true
  lineEnd : isLineEnd (m eol) = true

/-- The entries of the table lie one behind the other, from `lo` on. -/
def HeadersFrom (m : Mem Byte) (size : ℤ) : ℤ → List PhrHeader → Prop
  | _, [] => True
  | lo, h :: hs => ∃ eol, HeaderAt m size lo h eol ∧ HeadersFrom m size (eol + 1) hs

/-- An entry with its name, which is not empty and lies in front of the value. -/
structure EntryAt (m : Mem Byte) (size lo : ℤ) (h : PhrHeader) (eol : ℤ) : Prop
    extends HeaderAt m size lo h eol where
  name_lt : ∀ n, h.name = some n → lo ≤ n ∧ 0 < h.nameLen ∧ n + h.nameLen < h.value

/-- The entries, with their names, lie one behind the other. -/
def EntriesFrom (m : Mem Byte) (size : ℤ) : ℤ → List PhrHeader → Prop
  | _, [] => True
  | lo, h :: hs => ∃ eol, EntryAt m size lo h eol ∧ EntriesFrom m size (eol + 1) hs

theorem EntriesFrom.headersFrom {lo : ℤ} {hs : List PhrHeader} (h : EntriesFrom m size lo hs) :
    HeadersFrom m size lo hs := by
  induction hs generalizing lo with
  | nil => trivial
  | cons hd hs ih =>
      obtain ⟨eol, hat, hrest⟩ := h
      exact ⟨eol, hat.toHeaderAt, ih hrest⟩

theorem EntriesFrom.mono {lo lo' : ℤ} {hs : List PhrHeader} (h : EntriesFrom m size lo' hs)
    (hlo : lo ≤ lo') : EntriesFrom m size lo hs := by
  cases hs with
  | nil => trivial
  | cons hd hs =>
      obtain ⟨eol, hat, hrest⟩ := h
      refine ⟨eol, ⟨{ hat.toHeaderAt with lo_le := hlo.trans hat.lo_le }, ?_⟩, hrest⟩
      intro n hn
      obtain ⟨hname, hpos, hlt⟩ := hat.name_lt n hn
      exact ⟨hlo.trans hname, hpos, hlt⟩

theorem EntriesFrom.of_append {lo : ℤ} {pre post : List PhrHeader}
    (h : EntriesFrom m size lo (pre ++ post)) : EntriesFrom m size lo post := by
  induction pre generalizing lo with
  | nil => exact h
  | cons e pre ih =>
      obtain ⟨eol, hat, hrest⟩ := h
      have hvalue := hat.lo_le
      have hle := hat.value_le
      exact (ih hrest).mono (by omega)

theorem EntriesFrom.mem {lo : ℤ} {hs : List PhrHeader} (h : EntriesFrom m size lo hs)
    {e : PhrHeader} (he : e ∈ hs) : ∃ lo' eol, lo ≤ lo' ∧ EntryAt m size lo' e eol := by
  induction hs generalizing lo with
  | nil => cases he
  | cons hd hs ih =>
      obtain ⟨eol, hat, hrest⟩ := h
      rcases List.mem_cons.mp he with rfl | he
      · exact ⟨lo, eol, le_refl _, hat⟩
      · obtain ⟨lo', eol', hlo, hat'⟩ := ih hrest he
        have hle := hat.value_le
        have hlo' := hat.lo_le
        exact ⟨lo', eol', by omega, hat'⟩

/-- Entry `b` lies behind the value of entry `a`. -/
def Behind (a b : PhrHeader) : Prop :=
  a.value + a.valueLen < b.value ∧ ∀ n, b.name = some n → a.value + a.valueLen < n

theorem Behind.ne {a b : PhrHeader} (h : Behind a b) : a ≠ b := by
  rintro rfl
  have hvalue := h.1
  omega

theorem EntriesFrom.separated {lo : ℤ} {hs : List PhrHeader} (h : EntriesFrom m size lo hs)
    {a b : PhrHeader} (ha : a ∈ hs) (hb : b ∈ hs) : a = b ∨ Behind a b ∨ Behind b a := by
  induction hs generalizing lo with
  | nil => cases ha
  | cons hd hs ih =>
      obtain ⟨eol, hat, hrest⟩ := h
      have hle := hat.value_le
      -- everything in the tail lies behind the line of the head
      have hbehind : ∀ e ∈ hs, Behind hd e := by
        intro e he
        obtain ⟨lo', eol', hlo, hat'⟩ := hrest.mem he
        have hvalue := hat'.lo_le
        refine ⟨by omega, fun n hn => ?_⟩
        obtain ⟨hname, -, -⟩ := hat'.name_lt n hn
        omega
      rcases List.mem_cons.mp ha with rfl | ha'
      · rcases List.mem_cons.mp hb with rfl | hb'
        · exact Or.inl rfl
        · exact Or.inr (Or.inl (hbehind b hb'))
      · rcases List.mem_cons.mp hb with rfl | hb'
        · exact Or.inr (Or.inr (hbehind a ha'))
        · exact ih hrest ha' hb'

theorem parseName_ok {len : ℕ} {name : ℤ} {nameLen : ℕ}
    (h : parseName len buf = .ok (name, nameLen, rest)) :
    rest <:+ buf ∧ rest.length + 1 + nameLen ≤ buf.length ∧ 0 < nameLen ∧
      name = len - buf.length := by
  obtain ⟨token, htoken, h⟩ := bind_ok h
  obtain ⟨hsuffix, hne⟩ := parseToken_suffix htoken
  split at h
  · cases h
  · obtain ⟨value, hvalue, h⟩ := bind_ok h
    cases h
    have hskip := skipWhile_suffix hvalue
    have hle := hsuffix.length_le
    have hle' := hskip.length_le
    have hpos := List.length_pos_iff.mpr hne
    rw [List.length_tail] at hle'
    exact ⟨(hskip.trans (List.tail_suffix token)).trans hsuffix, by omega, by omega, rfl⟩

theorem parseNamed_ok {len : ℕ} {unfolded : Bool} {name : Option ℤ} {nameLen : ℕ}
    (h : (if unfolded then (parseName len buf).bind fun r => .ok (some r.1, r.2.1, r.2.2)
      else .ok (none, 0, buf) : Except ℤ (Option ℤ × ℕ × List Byte)) = .ok (name, nameLen, rest)) :
    rest <:+ buf ∧ ∀ n, name = some n → n = len - buf.length ∧
      0 < nameLen ∧ rest.length + 1 + nameLen ≤ buf.length := by
  split at h
  · obtain ⟨⟨n, l, value⟩, hname, h⟩ := bind_ok h
    cases h
    obtain ⟨hsuffix, hle, hpos, hn⟩ := parseName_ok hname
    refine ⟨hsuffix, ?_⟩
    rintro n' ⟨⟩
    exact ⟨hn, hpos, hle⟩
  · cases h
    exact ⟨List.suffix_rfl, nofun⟩

theorem Reads.isBlank_of_trimmed {value : List Byte} {t : ℕ} (h : Reads m size value)
    (ht : t ≤ value.length) {k : ℤ}
    (hk : size - value.length + trimmedLength (value.take t) ≤ k)
    (hk' : k < size - value.length + t) : isBlank (m k) = true := by
  obtain ⟨-, hblank⟩ := trimmedLength_spec (value.take t)
  obtain ⟨j, hj⟩ := Int.eq_ofNat_of_zero_le (show 0 ≤ k - (size - value.length) by omega)
  obtain rfl : k = size - value.length + j := by omega
  have hjt : j < (value.take t).length := by
    rw [List.length_take]
    omega
  have htrimmed := hblank j (by omega) hjt
  rw [List.getElem_take] at htrimmed
  rw [h.getElem j (by omega)]
  exact htrimmed

/-- **One header line.** Its entry lies in front of what is left. -/
theorem parseHeaderLine_ok {len : ℕ} {first : Bool} {h : PhrHeader}
    (hline : parseHeaderLine len first buf = .ok (h, rest)) (hbuf : Reads m len buf)
    (hlen : buf.length ≤ len) (hrest : rest ≠ []) :
    rest <:+ buf ∧
      ∃ eol, EntryAt m len (len - buf.length) h eol ∧ eol + 1 ≤ len - rest.length := by
  obtain ⟨⟨name, nameLen, value⟩, hnamed, hline⟩ := bind_ok hline
  obtain ⟨⟨t, rest'⟩, htoken, hline⟩ := bind_ok hline
  cases hline
  dsimp only at htoken hrest ⊢
  obtain ⟨hsuffix, hname⟩ := parseNamed_ok hnamed
  have hreads := hbuf.suffix hsuffix
  obtain ⟨hsuffix', hshort, hplain, hend⟩ := getTokenToEol_ok htoken hreads
  have htrim : trimmedLength (value.take t) ≤ t :=
    (trimmedLength_spec (value.take t)).1.trans (List.length_take_le t value)
  have hle := hsuffix.length_le
  have hpos := List.length_pos_iff.mpr hrest
  refine ⟨hsuffix'.trans hsuffix, (len : ℤ) - value.length + t, ?_, by omega⟩
  exact
    { name := by
        intro n hn
        have hfront := hname n hn
        omega
      lo_le := by
        dsimp only
        omega
      value_le := by
        dsimp only
        omega
      eol_lt := by omega
      token := hplain
      blanks := fun k hk hk' => hreads.isBlank_of_trimmed (by omega) hk hk'
      lineEnd := hend
      name_lt := by
        intro n hn
        have hfront := hname n hn
        dsimp only
        omega }

theorem parseHeaders_nonempty {len maxHeaders fuel num : ℕ} {r : List PhrHeader × List Byte}
    (h : parseHeaders len maxHeaders fuel num buf = .ok r) : buf ≠ [] := by
  rintro rfl
  cases fuel <;> cases h

/-- **The table**: at most `maxHeaders` entries, one behind the other. -/
theorem parseHeaders_ok {len maxHeaders : ℕ} {fuel num : ℕ} {hs : List PhrHeader}
    (h : parseHeaders len maxHeaders fuel num buf = .ok (hs, rest)) (hbuf : Reads m len buf)
    (hlen : buf.length ≤ len) (hnum : num ≤ maxHeaders) :
    EntriesFrom m len (len - buf.length) hs ∧ num + hs.length ≤ maxHeaders := by
  induction fuel generalizing num buf hs with
  | zero => cases buf <;> cases h
  | succ fuel ih =>
      cases buf with
      | nil => cases h
      | cons c buf =>
          unfold parseHeaders at h
          split at h
          · obtain ⟨buf', -, h⟩ := bind_ok h
            cases h
            exact ⟨trivial, hnum⟩
          · split at h
            · cases h
              exact ⟨trivial, hnum⟩
            · split at h
              · cases h
              · -- a line, and the table of what is behind it
                obtain ⟨⟨hd, buf'⟩, hline, h⟩ := bind_ok h
                obtain ⟨⟨tl, rest'⟩, htail, h⟩ := bind_ok h
                cases h
                obtain ⟨hsuffix, eol, hat, heol⟩ :=
                  parseHeaderLine_ok hline hbuf hlen (parseHeaders_nonempty htail)
                have hle := hsuffix.length_le
                have hnum' : num ≠ maxHeaders := by simpa using ‹¬ (num == maxHeaders) = true›
                obtain ⟨hrest, hcount⟩ :=
                  ih htail (hbuf.suffix hsuffix) (hle.trans hlen) (by omega)
                exact ⟨⟨eol, hat, hrest.mono heol⟩, by simp only [List.length_cons]; omega⟩

/-- **An accepted request**: its table lies one line behind the other in the
memory the request was read from. -/
theorem parseRequest_ok {len maxHeaders : ℕ} {r : PhrRequest}
    (h : parseRequest len maxHeaders buf = .ok r) (hbuf : Reads m len buf)
    (hlen : buf.length ≤ len) :
    EntriesFrom m len 0 r.headers ∧ r.headers.length ≤ maxHeaders := by
  obtain ⟨method, hmethod, h⟩ := bind_ok h
  obtain ⟨methodEnd, hmethodEnd, h⟩ := bind_ok h
  obtain ⟨path, hpath, h⟩ := bind_ok h
  obtain ⟨pathEnd, hpathEnd, h⟩ := bind_ok h
  obtain ⟨version, hversion, h⟩ := bind_ok h
  split at h
  · cases h
  · obtain ⟨⟨minor, behind⟩, hminor, h⟩ := bind_ok h
    obtain ⟨lines, hlines, h⟩ := bind_ok h
    obtain ⟨⟨hs, rest⟩, hheaders, h⟩ := bind_ok h
    cases h
    -- each stage reads on where the one before stopped
    have hmethod' : methodEnd <:+ buf :=
      (parseToken_suffix hmethodEnd).1.trans (skipEmptyLine_suffix hmethod)
    have hpath' : path <:+ buf :=
      (skipWhile_suffix hpath).trans ((List.tail_suffix methodEnd).trans hmethod')
    have hversion' : version <:+ buf :=
      (skipWhile_suffix hversion).trans
        ((List.tail_suffix pathEnd).trans ((advanceToken_suffix hpathEnd).trans hpath'))
    have hsuffix : lines <:+ buf :=
      (expectLineEnd_suffix hlines).trans ((parseHttpVersion_suffix hminor).trans hversion')
    have hle := hsuffix.length_le
    obtain ⟨hfrom, hcount⟩ := parseHeaders_ok hheaders (hbuf.suffix hsuffix) (by omega)
      (Nat.zero_le maxHeaders)
    exact ⟨hfrom.mono (by omega), by simpa using hcount⟩

end Pico

theorem two_le_of_phrParseRequest {bytes : List Byte} {maxHeaders : ℕ} {r : PhrRequest}
    (h : phrParseRequest bytes maxHeaders = .ok r) : 2 ≤ bytes.length := by
  obtain ⟨method, hmethod, h⟩ := bind_ok h
  obtain ⟨methodEnd, hmethodEnd, h⟩ := bind_ok h
  obtain ⟨path, hpath, -⟩ := bind_ok h
  have hle := ((Pico.parseToken_suffix hmethodEnd).1.trans
    (Pico.skipEmptyLine_suffix hmethod)).length_le
  match methodEnd, hle, hpath with
  | [], _, hpath => cases hpath
  | [_], _, hpath => cases hpath
  | _ :: _ :: _, hle, _ =>
      simp only [List.length_cons] at hle
      omega

theorem phrParseRequest_entries {m : Mem Byte} {n maxHeaders : ℕ} {r : PhrRequest}
    (h : phrParseRequest (window m 0 n) maxHeaders = .ok r) :
    Pico.EntriesFrom m n 0 r.headers ∧ r.headers.length ≤ maxHeaders := by
  unfold phrParseRequest at h
  have hreads := Pico.reads_window m n 0
  rw [zero_add] at hreads
  have hlen : (window m 0 n).length = n := window_length m 0 n
  rw [hlen] at h
  exact Pico.parseRequest_ok h hreads hlen.le

theorem phrParseRequest_ok {m : Mem Byte} {n maxHeaders : ℕ} {r : PhrRequest}
    (h : phrParseRequest (window m 0 n) maxHeaders = .ok r) :
    Pico.HeadersFrom m n 0 r.headers ∧ r.headers.length ≤ maxHeaders :=
  (phrParseRequest_entries h).imp_left Pico.EntriesFrom.headersFrom

end Zroxy
