import Zroxy.Parsers.HeaderTable

/-!
# The bytes of a rewritten request

`rewriteValues` is the reference: the request with the value of every entry that
carries the name replaced, whatever their number and lengths, and all other bytes
kept. The loop of `zxy_modify_http_headers` agrees with it as far as it replaces
one value. Behind the first one it either stops, when the lengths are the same,
or looks for the others where they no longer are.

So the buffer starts with the reference, when the loop finds only one of the
entries, exactly if the others need no rewriting (`rewrittenInPlace_settled`).
-/

namespace Zroxy

open OffsetMemory Runs Pico

variable {size lo lo' : ℤ} {modify : HttpHeader} {m m' w : Mem Byte} {h : PhrHeader}
  {hs : List PhrHeader}

/-- The bytes from `lo` to `size`, with the value of each entry that carries the
name replaced. -/
def rewriteValues (m : Mem Byte) (size : ℤ) (modify : HttpHeader) :
    ℤ → List PhrHeader → List Byte
  | lo, [] => window m lo (size - lo).toNat
  | lo, h :: hs =>
      if Carries m modify h then
        window m lo (h.value - lo).toNat ++
          (modify.value ++ rewriteValues m size modify (h.value + h.valueLen) hs)
      else rewriteValues m size modify lo hs

/-- The call returns, and the buffer starts with the reference rewriting of the
request. -/
def RewrittenInPlace (m : Mem Byte) (size : ℤ) (hs : List PhrHeader) (modify : HttpHeader) :
    Prop :=
  ∃ s, modifyHttpHeaders m size hs modify = .ok s ∧
    window s.buffer 0 (rewriteValues m size modify 0 hs).length =
      rewriteValues m size modify 0 hs

/-- The first entry that is selected, if there is one, carries the name, and no
other is: its value has the new length, or no later entry finds the name where it
used to be. -/
def RewritesFirst (size : ℤ) (modify : HttpHeader) (m : Mem Byte) : List PhrHeader → Prop
  | [] => True
  | h :: hs =>
      if Look.selected modify ⟨m, h⟩ then
        Carries m modify h ∧
          (h.valueLen = modify.value.length ∨
            ∀ e ∈ hs, Look.selected modify
              ⟨splice m h.value h.valueLen modify.value size, e⟩ = false)
      else RewritesFirst size modify m hs

/-- All but the first of the entries that carry the name have the new value
already. -/
def LaterSettled (m : Mem Byte) (modify : HttpHeader) (hs : List PhrHeader) : Prop :=
  ∀ e ∈ (hs.filter (Carries m modify)).tail, window m e.value e.valueLen = modify.value

/-! ## The loop -/

theorem compareName_of_not_selected (hname : h.name ≠ none)
    (hnot : Look.selected modify ⟨m, h⟩ = false) :
    ∃ order, compareName m modify h.name = .ok order ∧ order ≠ 0 := by
  obtain ⟨order, hok⟩ := exists_order m modify hname
  refine ⟨order, hok, ?_⟩
  rintro rfl
  rw [Look.selected_iff.mpr hok] at hnot
  cases hnot

/-- The loop passes over named entries that are not selected. -/
theorem modifyEntries_pass {es : List PhrHeader}
    (hes : ∀ h ∈ es, h.name ≠ none ∧ Look.selected modify ⟨m, h⟩ = false) :
    modifyEntries size modify m (es ++ hs) = modifyEntries size modify m hs := by
  induction es with
  | nil => rfl
  | cons e es ih =>
      obtain ⟨⟨hname, hnot⟩, hes⟩ := List.forall_mem_cons.mp hes
      obtain ⟨order, hok, hne⟩ := compareName_of_not_selected hname hnot
      rw [List.cons_append, modifyEntries, hok]
      show (if order ≠ 0 then _ else _) = _
      rw [if_pos hne]
      exact ih hes

theorem modifyEntries_none (hnamed : ∀ h ∈ hs, h.name ≠ none)
    (hnone : ∀ h ∈ hs, Look.selected modify ⟨m, h⟩ = false) :
    modifyEntries size modify m hs = .ok m := by
  have hpass := @modifyEntries_pass size modify m [] hs fun h hh => ⟨hnamed h hh, hnone h hh⟩
  rwa [List.append_nil] at hpass

/-- The entry that is selected first, with what lies in front of it, and the
memory the loop leaves. -/
theorem modifyEntries_first (hnamed : ∀ h ∈ hs, h.name ≠ none)
    (hfirst : RewritesFirst size modify m hs) :
    (∀ h ∈ hs, ¬ Carries m modify h) ∧ modifyEntries size modify m hs = .ok m ∨
      ∃ pre h post, hs = pre ++ h :: post ∧ (∀ e ∈ pre, ¬ Carries m modify e) ∧
        Carries m modify h ∧
        modifyEntries size modify m hs =
          .ok (splice m h.value h.valueLen modify.value size) := by
  induction hs with
  | nil => exact Or.inl ⟨nofun, rfl⟩
  | cons hd hs ih =>
      obtain ⟨hname, hnamed⟩ := List.forall_mem_cons.mp hnamed
      rw [RewritesFirst] at hfirst
      rw [modifyEntries]
      cases hselected : Look.selected modify ⟨m, hd⟩ with
      | true =>
          rw [hselected, if_pos rfl] at hfirst
          obtain ⟨hcarries, hend⟩ := hfirst
          refine Or.inr ⟨[], hd, hs, rfl, nofun, hcarries, ?_⟩
          rw [Look.selected_iff.mp hselected, replaceValue_eq_splice]
          show (if hd.valueLen = modify.value.length then _ else _) = _
          split
          · rfl
          · exact modifyEntries_none hnamed (hend.resolve_left ‹_›)
      | false =>
          rw [hselected, if_neg Bool.false_ne_true] at hfirst
          obtain ⟨order, hok, hne⟩ := compareName_of_not_selected hname hselected
          have hnot : ¬ Carries m modify hd := by
            intro hc
            rw [Look.selected_iff.mpr hc.compareName] at hselected
            cases hselected
          rw [hok]
          simp only [Except.bind, if_pos hne]
          rcases ih hnamed hfirst with ⟨hnone, hsame⟩ | ⟨pre, h, post, rfl, hpre, hh, hsplice⟩
          · exact Or.inl ⟨List.forall_mem_cons.mpr ⟨hnot, hnone⟩, hsame⟩
          · exact Or.inr ⟨hd :: pre, h, post, rfl, List.forall_mem_cons.mpr ⟨hnot, hpre⟩, hh,
              hsplice⟩

theorem rewrittenInPlace_iff (hcount : hs.length ≤ maxNumHeaders) :
    RewrittenInPlace m size hs modify ↔
      ∃ m', modifyEntries size modify m hs = .ok m' ∧
        window m' 0 (rewriteValues m size modify 0 hs).length =
          rewriteValues m size modify 0 hs := by
  have htake : hs.take maxNumHeaders = hs := List.take_of_length_le hcount
  constructor
  · rintro ⟨s, hok, hwindow⟩
    obtain ⟨hloop, -, -⟩ := modifyHttpHeaders_ok hok
    rw [htake] at hloop
    exact ⟨s.buffer, hloop, hwindow⟩
  · rintro ⟨m', hloop, hwindow⟩
    refine ⟨⟨m', tableAfter size modify m hs ++ hs.drop maxNumHeaders, 0⟩, ?_, hwindow⟩
    rw [modifyHttpHeaders_eq, htake, hloop]
    rfl

/-! ## The reference -/

theorem rewriteValues_carries (hc : Carries m modify h) :
    rewriteValues m size modify lo (h :: hs) =
      window m lo (h.value - lo).toNat ++
        (modify.value ++ rewriteValues m size modify (h.value + h.valueLen) hs) := by
  rw [rewriteValues, if_pos hc]

theorem rewriteValues_append {pre post : List PhrHeader} (hpre : ∀ e ∈ pre, ¬ Carries m modify e) :
    rewriteValues m size modify lo (pre ++ post) = rewriteValues m size modify lo post := by
  induction pre with
  | nil => rfl
  | cons e pre ih =>
      obtain ⟨hnot, hpre⟩ := List.forall_mem_cons.mp hpre
      rw [List.cons_append, rewriteValues, if_neg hnot, ih hpre]

/-- **With nothing left to replace**, the reference is the request. -/
theorem rewriteValues_settled (hfrom : EntriesFrom w size lo' hs) (hlo : lo ≤ lo')
    (hsettled : ∀ e ∈ hs, Carries m modify e → window m e.value e.valueLen = modify.value) :
    rewriteValues m size modify lo hs = window m lo (size - lo).toNat := by
  induction hs generalizing lo lo' with
  | nil => rfl
  | cons e hs ih =>
      obtain ⟨eol, hat, hrest⟩ := hfrom
      obtain ⟨hvalue, hsettled⟩ := List.forall_mem_cons.mp hsettled
      have hlo' := hat.lo_le
      have hle := hat.value_le
      have heol := hat.eol_lt
      by_cases hc : Carries m modify e
      · rw [rewriteValues_carries hc, ih hrest (by omega) hsettled, ← hvalue hc]
        have hstart : lo + ((e.value - lo).toNat : ℕ) = e.value := by omega
        have hlen : (size - lo).toNat =
            (e.value - lo).toNat + (e.valueLen + (size - (e.value + e.valueLen)).toNat) := by
          omega
        rw [hlen, window_add, window_add, hstart]
      · rw [rewriteValues, if_neg hc, ih (hrest.mono (by omega)) hlo hsettled]

/-- **One splice is the reference**, if nothing behind it is left to replace. -/
theorem window_splice_eq (hfrom : EntriesFrom w size lo' (h :: hs)) (hlo : lo ≤ lo')
    (hc : Carries m modify h)
    (hsettled : ∀ e ∈ hs, Carries m modify e → window m e.value e.valueLen = modify.value) :
    window (splice m h.value h.valueLen modify.value size) lo
        (rewriteValues m size modify lo (h :: hs)).length =
      rewriteValues m size modify lo (h :: hs) := by
  obtain ⟨eol, hat, hrest⟩ := hfrom
  have hlo' := hat.lo_le
  have hle := hat.value_le
  have heol := hat.eol_lt
  rw [rewriteValues_carries hc, rewriteValues_settled hrest (by omega) hsettled,
    ← List.append_assoc]
  have hsplice := @window_splice _ m h.value size h.valueLen modify.value lo
    (h.value - lo).toNat (size - (h.value + h.valueLen)).toNat (by omega) (by omega)
  rw [← hsplice, window_length]

theorem tail_filter_carries {pre post : List PhrHeader} (hpre : ∀ e ∈ pre, ¬ Carries m modify e)
    (hc : Carries m modify h) :
    ((pre ++ h :: post).filter (Carries m modify)).tail = post.filter (Carries m modify) := by
  rw [List.filter_append, List.filter_eq_nil_iff.mpr (by simpa using hpre), List.nil_append,
    List.filter_cons_of_pos (by simpa using hc), List.tail_cons]

theorem rewrittenInPlace_of_settled (hfrom : EntriesFrom w size 0 hs)
    (hcount : hs.length ≤ maxNumHeaders) (hnamed : ∀ h ∈ hs, h.name ≠ none)
    (hfirst : RewritesFirst size modify m hs) (hsettled : LaterSettled m modify hs) :
    RewrittenInPlace m size hs modify := by
  rw [rewrittenInPlace_iff hcount]
  rcases modifyEntries_first hnamed hfirst with ⟨hnone, hsame⟩ |
    ⟨pre, h, post, rfl, hpre, hc, hsplice⟩
  · have hreference := @rewriteValues_settled size 0 0 modify m w hs hfrom le_rfl
      fun e he hc => absurd hc (hnone e he)
    exact ⟨m, hsame, by rw [hreference, window_length]⟩
  · refine ⟨_, hsplice, ?_⟩
    rw [rewriteValues_append hpre]
    apply window_splice_eq hfrom.of_append le_rfl hc
    intro e he hce
    apply hsettled e
    rw [tail_filter_carries hpre hc]
    exact List.mem_filter.mpr ⟨he, by simpa using hce⟩

/-! ## Nothing else is right -/

theorem window_prefix_rewriteValues {j : ℕ} (hfrom : EntriesFrom w size lo' hs)
    (hj : lo + j ≤ lo') (hsize : lo + j ≤ size) :
    window m lo j <+: rewriteValues m size modify lo hs := by
  induction hs generalizing lo' with
  | nil => exact prefix_window m lo (by omega)
  | cons e hs ih =>
      obtain ⟨eol, hat, hrest⟩ := hfrom
      have hlo' := hat.lo_le
      have hle := hat.value_le
      by_cases hc : Carries m modify e
      · rw [rewriteValues_carries hc]
        exact (prefix_window m lo (by omega)).trans (List.prefix_append _ _)
      · rw [rewriteValues, if_neg hc]
        exact ih hrest (by omega)

/-- A value in front of which everything is right, and behind it too, is the new
one: a longer one would have to run into the line end, a shorter one would bring
the line end into the value. -/
theorem value_settled {eol : ℤ} {rest : List Byte} {y : Mem Byte} (hplain : PlainValue modify)
    (hat : EntryAt m size lo h eol)
    (hagree : ∀ k, h.value ≤ k → k < size → y k = m k)
    (hvalue : window y h.value modify.value.length = modify.value)
    (hrest : window y (h.value + modify.value.length) rest.length = rest)
    (hstart : window m (h.value + h.valueLen) (eol + 1 - (h.value + h.valueLen)).toNat <+: rest) :
    window m h.value h.valueLen = modify.value := by
  have hle := hat.value_le
  have heol := hat.eol_lt
  rcases lt_trichotomy h.valueLen modify.value.length with hlen | hlen | hlen
  · have hcell := List.getElem_of_eq hvalue (i := h.valueLen) (by simpa using hlen)
    rw [window_getElem, hagree _ (by omega) (by omega)] at hcell
    exact absurd (hcell ▸ List.getElem_mem hlen) (not_plain_behind hat.toHeaderAt hplain)
  · rw [← hvalue, ← hlen]
    exact window_congr fun k hk => (hagree _ (by omega) (by omega)).symm
  · -- the line end of the request would have moved into the old value
    obtain ⟨j, hj⟩ := Int.eq_ofNat_of_zero_le (show 0 ≤ eol - (h.value + h.valueLen) by omega)
    have hjlen : j < (eol + 1 - (h.value + h.valueLen)).toNat := by omega
    have hjrest : j < rest.length := by
      have hlength := hstart.length_le
      rw [window_length] at hlength
      omega
    have hmoved := List.getElem_of_eq hrest (i := j) (by simpa using hjrest)
    have hthere := hstart.getElem (by simpa using hjlen)
    rw [← hmoved, window_getElem, window_getElem, hagree _ (by omega) (by omega)] at hthere
    have hcontrol := hat.token (h.value + modify.value.length + j) (by omega) (by omega)
    have hend : h.value + h.valueLen + (j : ℤ) = eol := by omega
    rw [← hthere, hend, isControl_of_lineEnd hat.lineEnd] at hcontrol
    cases hcontrol

/-- **Where the request already is the reference**, every value to be replaced is
the new one. -/
theorem settled_of_window {y : Mem Byte} (hplain : PlainValue modify)
    (hfrom : EntriesFrom m size lo' hs) (hlo : lo ≤ lo')
    (hagree : ∀ k, lo ≤ k → k < size → y k = m k)
    (hwindow : window y lo (rewriteValues m size modify lo hs).length =
      rewriteValues m size modify lo hs) :
    ∀ e ∈ hs, Carries m modify e → window m e.value e.valueLen = modify.value := by
  induction hs generalizing lo lo' with
  | nil => exact nofun
  | cons e hs ih =>
      obtain ⟨eol, hat, hrest⟩ := hfrom
      have hlo' := hat.lo_le
      have hle := hat.value_le
      have heol := hat.eol_lt
      rw [List.forall_mem_cons]
      by_cases hc : Carries m modify e
      · have hstart : lo + ((e.value - lo).toNat : ℕ) = e.value := by omega
        rw [rewriteValues_carries hc, List.length_append, List.length_append, window_length,
          window_add, window_add, hstart] at hwindow
        obtain ⟨-, hwindow⟩ := List.append_inj hwindow (by simp)
        obtain ⟨hvalue, hbehind⟩ := List.append_inj hwindow (by simp)
        have hsettled := value_settled hplain hat (fun k hk => hagree k (by omega)) hvalue hbehind
          (window_prefix_rewriteValues hrest (by omega) (by omega))
        have hlen : modify.value.length = e.valueLen := by rw [← hsettled, window_length]
        rw [hlen] at hbehind
        exact ⟨fun _ => hsettled,
          ih hrest (by omega) (fun k hk => hagree k (by omega)) hbehind⟩
      · rw [rewriteValues, if_neg hc] at hwindow
        exact ⟨fun hcon => absurd hcon hc, ih (hrest.mono (by omega)) hlo hagree hwindow⟩

/-- Behind the value replaced, the buffer is the old request, moved. -/
theorem settled_of_splice (hplain : PlainValue modify) (hfrom : EntriesFrom m size lo (h :: hs))
    (hc : Carries m modify h)
    (hwindow : window (splice m h.value h.valueLen modify.value size) lo
        (rewriteValues m size modify lo (h :: hs)).length =
      rewriteValues m size modify lo (h :: hs)) :
    ∀ e ∈ hs, Carries m modify e → window m e.value e.valueLen = modify.value := by
  obtain ⟨eol, hat, hrest⟩ := hfrom
  have hlo := hat.lo_le
  have hle := hat.value_le
  have hstart : lo + ((h.value - lo).toNat : ℕ) = h.value := by omega
  rw [rewriteValues_carries hc, List.length_append, List.length_append, window_length,
    window_add, window_add, hstart] at hwindow
  obtain ⟨-, hwindow⟩ := List.append_inj hwindow (by simp)
  obtain ⟨-, hbehind⟩ := List.append_inj hwindow (by simp)
  -- the cells of the spliced memory, by their old offsets
  apply @settled_of_window size (h.value + h.valueLen) (eol + 1) modify m hs
    (fun k => splice m h.value h.valueLen modify.value size
      (k + modify.value.length - h.valueLen)) hplain hrest (by omega)
  · intro k hk hk'
    rw [splice_behind (by omega) (by omega)]
    congr 1
    omega
  · refine Eq.trans (window_congr fun k hk => ?_) hbehind
    congr 1
    omega

theorem settled_of_rewrittenInPlace (hplain : PlainValue modify) (hfrom : EntriesFrom m size 0 hs)
    (hcount : hs.length ≤ maxNumHeaders) (hnamed : ∀ h ∈ hs, h.name ≠ none)
    (hfirst : RewritesFirst size modify m hs) (hdone : RewrittenInPlace m size hs modify) :
    LaterSettled m modify hs := by
  obtain ⟨m', hloop, hwindow⟩ := (rewrittenInPlace_iff hcount).mp hdone
  rcases modifyEntries_first hnamed hfirst with ⟨hnone, -⟩ | ⟨pre, h, post, rfl, hpre, hc, hsplice⟩
  · have hempty : hs.filter (Carries m modify) = [] :=
      List.filter_eq_nil_iff.mpr (by simpa using hnone)
    intro e he
    rw [hempty] at he
    cases he
  · cases hsplice.symm.trans hloop
    rw [rewriteValues_append hpre] at hwindow
    intro e he
    rw [tail_filter_carries hpre hc, List.mem_filter] at he
    exact settled_of_splice hplain hfrom.of_append hc hwindow e he.1 (by simpa using he.2)

/-- **The bytes of a rewritten request.** In an accepted request without
continuation lines, whose first entry with the name is the only one the loop
finds, the buffer starts with the reference rewriting if all the others have the
new value already. For a new value without blanks and control characters it does
so only then. -/
theorem rewrittenInPlace_settled {n : ℕ} {r : PhrRequest}
    (hparse : phrParseRequest (window m 0 n) maxNumHeaders = .ok r)
    (hnamed : ∀ h ∈ r.headers, h.name ≠ none) :
    (RewritesFirst n modify m r.headers ∧ LaterSettled m modify r.headers →
        RewrittenInPlace m n r.headers modify) ∧
      (PlainValue modify → RewritesFirst n modify m r.headers →
        RewrittenInPlace m n r.headers modify → LaterSettled m modify r.headers) := by
  obtain ⟨hfrom, hcount⟩ := phrParseRequest_entries hparse
  constructor
  · rintro ⟨hfirst, hsettled⟩
    exact rewrittenInPlace_of_settled hfrom hcount hnamed hfirst hsettled
  · intro hplain hfirst hdone
    exact settled_of_rewrittenInPlace hplain hfrom hcount hnamed hfirst hdone

/-- `Host:a`, and `Host:quera.org` behind it. -/
def settledHostRequest : List Byte :=
  [71, 32, 47, 32, 72, 84, 84, 80, 47, 49, 46, 48, 10, 72, 111, 115, 116, 58, 97, 10,
    72, 111, 115, 116, 58, 113, 117, 101, 114, 97, 46, 111, 114, 103, 10, 10]

theorem settledHostRequest_parsed :
    phrParseRequest (window (requestOf settledHostRequest).buffer 0 36) maxNumHeaders =
      .ok ⟨36, 0, 1, 2, 1, 0, [⟨some 13, 4, 18, 1⟩, ⟨some 20, 4, 25, 9⟩]⟩ := rfl

/-- The second one is not found at its old place, and has the new value. -/
theorem rewrittenInPlace_settledHostRequest :
    RewrittenInPlace (requestOf settledHostRequest).buffer (36 : ℕ)
      [⟨some 13, 4, 18, 1⟩, ⟨some 20, 4, 25, 9⟩] hostHeader := by
  apply (rewrittenInPlace_settled settledHostRequest_parsed (by simp)).1
  constructor
  · show if Look.selected hostHeader ⟨_, ⟨some 13, 4, 18, 1⟩⟩ then _ else _
    rw [if_pos (by decide)]
    refine ⟨by decide, Or.inr fun e he => ?_⟩
    obtain rfl := List.mem_singleton.mp he
    decide
  · intro e he
    have hlater : e ∈ [(⟨some 20, 4, 25, 9⟩ : PhrHeader)] := he
    obtain rfl := List.mem_singleton.mp hlater
    decide

/-- `Host:a`, and `Host:b` behind it. -/
def twoHostRequest : List Byte :=
  [71, 32, 47, 32, 72, 84, 84, 80, 47, 49, 46, 48, 10, 72, 111, 115, 116, 58, 97, 10,
    72, 111, 115, 116, 58, 98, 10, 10]

/-- The second one is looked for where it used to be, and stays. -/
theorem second_host_stays :
    ¬ ∀ (m : Mem Byte) (n : ℕ) (r : PhrRequest) (modify : HttpHeader),
      phrParseRequest (window m 0 n) maxNumHeaders = .ok r →
      (∀ h ∈ r.headers, h.name ≠ none) →
      (∀ h ∈ r.headers, ∀ k ∈ h.name, Begins m modify k → Carries m modify h) →
      RewrittenInPlace m n r.headers modify := by
  intro hall
  have hparse : phrParseRequest (window (requestOf twoHostRequest).buffer 0 28) maxNumHeaders =
      .ok ⟨28, 0, 1, 2, 1, 0, [⟨some 13, 4, 18, 1⟩, ⟨some 20, 4, 25, 1⟩]⟩ := rfl
  obtain ⟨s, hok, hwindow⟩ := hall _ 28 _ hostHeader hparse (by simp) (by decide)
  cases hok
  exact absurd hwindow (by decide)

end Zroxy
