import Zroxy.Parsers.RequestLayout

/-!
# What the rewriting does to the bytes of a request

The loop of `zxy_modify_http_headers` runs over the entries as the parser left
them (`modifyEntries`). On the table of an accepted request it reads and changes
cells of the request alone as far as the request is concerned, and it leaves the
request as it is exactly when it is `Untouched`: the first entry whose name
compares equal, if there is one, has the new value already, and no continuation
line comes before it.
-/

namespace Zroxy

open OffsetMemory Runs Pico

/-! ## Inside the request -/

/-- Two memories with the same cells from 0 to `size`. -/
def AgreeBelow (size : ℤ) (m m' : Mem Byte) : Prop := ∀ k, 0 ≤ k → k < size → m k = m' k

variable {size : ℤ} {modify : HttpHeader} {m m' : Mem Byte}

theorem AgreeBelow.window {n : ℕ} (h : AgreeBelow n m m') : window m 0 n = window m' 0 n :=
  window_eq_iff.mpr fun k h0 hk => h k h0 (by omega)

theorem AgreeBelow.of_window {n : ℕ} (h : OffsetMemory.window m 0 n = OffsetMemory.window m' 0 n) :
    AgreeBelow n m m' :=
  fun k h0 hk => window_eq_iff.mp h k h0 (by omega)

theorem AgreeBelow.compareName (h : AgreeBelow size m m') (hname : modify.name.length = 4)
    {name : Option ℤ} (hin : ∀ n, name = some n → 0 ≤ n ∧ n + 4 ≤ size) :
    compareName m modify name = compareName m' modify name := by
  cases name with
  | none => rfl
  | some n =>
      obtain ⟨h0, hle⟩ := hin n rfl
      refine congrArg Except.ok (fastCompare_congr (by rw [hname]; decide) fun k hk => ?_)
      exact h _ (by omega) (by omega)

theorem AgreeBelow.store (h : AgreeBelow size m m') (off : ℤ) (xs : List Byte) :
    AgreeBelow size (store m off xs) (store m' off xs) := by
  intro k h0 hk
  unfold OffsetMemory.store
  rw [h k h0 hk]

theorem AgreeBelow.move (h : AgreeBelow size m m') {dst src : ℤ} (hsrc : 0 ≤ src) :
    AgreeBelow size (move m dst src (size - src)) (move m' dst src (size - src)) := by
  intro k h0 hk
  unfold OffsetMemory.move
  split
  · exact h _ (by omega) (by omega)
  · exact h k h0 hk

theorem AgreeBelow.replaceValue (h : AgreeBelow size m m') {hd : PhrHeader}
    (hvalue : 0 ≤ hd.value) :
    AgreeBelow size (replaceValue size modify m hd) (replaceValue size modify m' hd) := by
  rw [replaceValue_eq_splice, replaceValue_eq_splice]
  exact (h.move (by omega)).store _ _

/-- The loop reads nothing outside the request that it could put into it. -/
theorem modifyEntries_congr (hname : modify.name.length = 4) {n : ℕ} :
    ∀ {hs : List PhrHeader} {lo : ℤ} {m m' w : Mem Byte}, AgreeBelow n m m' → 0 ≤ lo →
      HeadersFrom w n lo hs →
      (modifyEntries n modify m hs).map (window · 0 n) =
        (modifyEntries n modify m' hs).map (window · 0 n)
  | [], _, _, _, _, h, _, _ => congrArg Except.ok h.window
  | hd :: hs, lo, m, m', w, h, hlo, hfrom => by
      obtain ⟨eol, hat, hrest⟩ := hfrom
      have hvalue := hlo.trans hat.lo_le
      have hle := hat.value_le
      have hreplaced := @AgreeBelow.replaceValue n modify m m' h hd hvalue
      rw [modifyEntries, modifyEntries, h.compareName hname hat.name]
      cases Zroxy.compareName m' modify hd.name with
      | error f => rfl
      | ok order =>
          simp only [Except.bind]
          split
          · exact modifyEntries_congr hname h (by omega) hrest
          · split
            · exact congrArg Except.ok hreplaced.window
            · exact modifyEntries_congr hname hreplaced (by omega) hrest

/-! ## What the loop changes -/

theorem replaceValue_below {hd : PhrHeader} {k : ℤ} (hk : k < hd.value) :
    replaceValue size modify m hd k = m k := by
  rw [replaceValue_eq_splice, splice_below hk]

theorem modifyEntries_below {w : Mem Byte} : ∀ {hs : List PhrHeader} {lo : ℤ} {m m' : Mem Byte},
    HeadersFrom w size lo hs → modifyEntries size modify m hs = .ok m' →
      ∀ k, k < lo → m' k = m k
  | [], _, _, _, _, h, k, _ => by
      cases h
      rfl
  | hd :: hs, lo, m, m', hfrom, h, k, hk => by
      obtain ⟨eol, hat, hrest⟩ := hfrom
      have hlo := hat.lo_le
      have hle := hat.value_le
      have hhead : replaceValue size modify m hd k = m k := replaceValue_below (by omega)
      obtain ⟨order, -, h⟩ := bind_ok h
      split at h
      · exact modifyEntries_below hrest h k (by omega)
      · split at h
        · cases h
          exact hhead
        · exact (modifyEntries_below hrest h k (by omega)).trans hhead

/-- A new value that fits the rules of a value: no control characters and no
blanks. -/
def PlainValue (modify : HttpHeader) : Prop :=
  ∀ c ∈ modify.value, isControl c = false ∧ isBlank c = false

theorem isControl_of_lineEnd {c : Byte} (h : isLineEnd c = true) : isControl c = true := by
  simp only [isLineEnd, Bool.or_eq_true, beq_iff_eq] at h
  rcases h with rfl | rfl <;> rfl

theorem not_plain_behind {lo eol : ℤ} {hd : PhrHeader} (hat : HeaderAt m size lo hd eol)
    (hplain : PlainValue modify) : m (hd.value + hd.valueLen) ∉ modify.value := by
  obtain ⟨-, -, hle, -, -, hblanks, hend⟩ := hat
  intro hmem
  obtain ⟨hcontrol, hblank⟩ := hplain _ hmem
  rcases lt_or_eq_of_le hle with hlt | hlast
  · rw [hblanks _ le_rfl hlt] at hblank
    cases hblank
  · rw [hlast, isControl_of_lineEnd hend] at hcontrol
    cases hcontrol

/-- Under a longer value the cell behind the old one holds a byte of the new. -/
theorem replaceValue_longer {lo eol : ℤ} {hd : PhrHeader} (hat : HeaderAt m size lo hd eol)
    (hplain : PlainValue modify) (hlen : hd.valueLen < modify.value.length) :
    replaceValue size modify m hd (hd.value + hd.valueLen) ≠ m (hd.value + hd.valueLen) := by
  rw [replaceValue_eq_splice, splice_inside _ hlen]
  intro heq
  exact not_plain_behind hat hplain (heq ▸ List.getElem_mem hlen)

/-- Under a value of the same length: where nothing changes, the old value was
the new one. -/
theorem replaceValue_same_length {hd : PhrHeader} (hlen : hd.valueLen = modify.value.length)
    (hvalue : window m hd.value hd.valueLen ≠ modify.value) :
    ∃ k, hd.value ≤ k ∧ k ≤ hd.value + hd.valueLen ∧ replaceValue size modify m hd k ≠ m k := by
  rw [replaceValue_eq_splice, splice_same_length hlen.symm]
  by_contra hall
  push Not at hall
  refine hvalue ?_
  rw [← window_store m hd.value modify.value, ← hlen]
  refine (window_congr fun k hk => ?_).symm
  exact hall _ (by omega) (by omega)

/-- Under a shorter value: the line end moves to a cell that held none. -/
theorem replaceValue_shorter {lo eol : ℤ} {hd : PhrHeader} (hat : HeaderAt m size lo hd eol)
    (hlen : modify.value.length < hd.valueLen) :
    replaceValue size modify m hd (eol - hd.valueLen + modify.value.length) ≠
      m (eol - hd.valueLen + modify.value.length) := by
  obtain ⟨-, -, hle, heol, htoken, -, hend⟩ := hat
  rw [replaceValue_eq_splice, splice_behind (by omega) (by omega), add_sub_cancel_right,
    sub_add_cancel]
  intro heq
  have hcontrol := htoken (eol - hd.valueLen + modify.value.length) (by omega) (by omega)
  rw [← heq, isControl_of_lineEnd hend] at hcontrol
  cases hcontrol

/-- A value that is not the new one does not survive: some cell up to its line
end changes. -/
theorem replaceValue_changes {lo eol : ℤ} {hd : PhrHeader} (hat : HeaderAt m size lo hd eol)
    (hplain : PlainValue modify)
    (hvalue : window m hd.value hd.valueLen ≠ modify.value) :
    ∃ k, hd.value ≤ k ∧ k ≤ eol ∧ replaceValue size modify m hd k ≠ m k := by
  have hle := hat.value_le
  rcases lt_trichotomy hd.valueLen modify.value.length with hlen | hlen | hlen
  · exact ⟨_, by omega, hle, replaceValue_longer hat hplain hlen⟩
  · obtain ⟨k, hk, hk', hne⟩ := @replaceValue_same_length size modify m hd hlen hvalue
    exact ⟨k, hk, by omega, hne⟩
  · exact ⟨_, by omega, by omega, replaceValue_shorter hat hlen⟩

/-- The first entry whose name compares equal, if there is one, has the new
value, and no NULL name comes before it. -/
def Untouched (m : Mem Byte) (modify : HttpHeader) : List PhrHeader → Prop
  | [] => True
  | h :: hs =>
      match compareName m modify h.name with
      | .error _ => False
      | .ok order =>
          if order ≠ 0 then Untouched m modify hs
          else window m h.value h.valueLen = modify.value

theorem replaceValue_self {hd : PhrHeader}
    (hvalue : window m hd.value hd.valueLen = modify.value) :
    hd.valueLen = modify.value.length ∧ replaceValue size modify m hd = m := by
  constructor
  · rw [← hvalue, window_length]
  · rw [replaceValue_eq_splice, splice_self hvalue]

theorem modifyEntries_untouched {hs : List PhrHeader} (h : Untouched m modify hs) :
    modifyEntries size modify m hs = .ok m := by
  induction hs with
  | nil => rfl
  | cons hd hs ih =>
      rw [modifyEntries]
      rw [Untouched] at h
      cases hcompare : compareName m modify hd.name with
      | error f =>
          rw [hcompare] at h
          exact h.elim
      | ok order =>
          rw [hcompare] at h
          simp only [Except.bind] at h ⊢
          split
          · rw [if_pos ‹_›] at h
            exact ih h
          · rw [if_neg ‹_›] at h
            obtain ⟨hlen, hsame⟩ := @replaceValue_self size modify m hd h
            rw [if_pos hlen, hsame]

/-- **The rewriting shows.** If the loop ends and the request is not untouched, a
cell of the request has changed. -/
theorem modifyEntries_changes (hplain : PlainValue modify) :
    ∀ {hs : List PhrHeader} {lo : ℤ}, HeadersFrom m size lo hs →
      ¬ Untouched m modify hs → modifyEntries size modify m hs = .ok m' →
      ∃ k, lo ≤ k ∧ k < size ∧ m' k ≠ m k
  | [], _, _, hnot, _ => absurd trivial hnot
  | hd :: hs, lo, hfrom, hnot, h => by
      obtain ⟨eol, hat, hrest⟩ := hfrom
      have hlo := hat.lo_le
      have hle := hat.value_le
      have heol := hat.eol_lt
      rw [modifyEntries] at h
      rw [Untouched] at hnot
      obtain ⟨order, horder, h⟩ := bind_ok h
      rw [horder] at hnot
      simp only at hnot
      split at h
      · rw [if_pos ‹_›] at hnot
        obtain ⟨k, hk, hk', hne⟩ := modifyEntries_changes hplain hrest hnot h
        exact ⟨k, by omega, hk', hne⟩
      · rw [if_neg ‹_›] at hnot
        obtain ⟨k, hk, hk', hne⟩ := replaceValue_changes hat hplain hnot
        refine ⟨k, by omega, by omega, ?_⟩
        -- entries behind this one leave the cell alone
        split at h
        · cases h
          exact hne
        · rwa [modifyEntries_below hrest h k (by omega)]

/-! ## Whole requests -/

/-- A request of the bytes given, with zeros around it. -/
def requestOf (bytes : List Byte) : WriteIoReq :=
  ⟨0, store (fun _ => 0) 0 bytes, bytes.length, bytes.length⟩

@[simp] theorem requestOf_bytes (bytes : List Byte) : (requestOf bytes).bytes = bytes := by
  unfold requestOf WriteIoReq.bytes
  rw [Int.toNat_natCast, window_store]

theorem hostHeader_plain : PlainValue hostHeader := by
  intro c hc
  have hall : (hostHeader.value.all fun c => !isControl c && !isBlank c) = true := by decide
  simpa using List.all_eq_true.mp hall c hc

/-- What the rewriting makes of the bytes of a request. -/
def hostRewritten (bytes : List Byte) : Except Fault (List Byte) :=
  (rewriteHost (requestOf bytes)).map WriteIoReq.bytes

/-- If the parser finds a complete request, its Host is untouched. -/
def HostUntouched (bytes : List Byte) : Prop :=
  ∀ parsed, phrParseRequest bytes maxNumHeaders = .ok parsed → 0 < parsed.consumed →
    Untouched (requestOf bytes).buffer hostHeader parsed.headers

theorem rewriteHost_parsed {req : WriteIoReq} {parsed : PhrRequest}
    (hparse : phrParseRequest req.bytes maxNumHeaders = .ok parsed) (hsome : 0 < parsed.consumed)
    (hlen : 0 ≤ req.sendNbytes) :
    HeadersFrom req.buffer req.sendNbytes 0 parsed.headers ∧
      (rewriteHost req).map WriteIoReq.bytes =
        (modifyEntries req.sendNbytes hostHeader req.buffer parsed.headers).map
          (window · 0 req.sendNbytes.toNat) := by
  obtain ⟨n, hn⟩ := Int.eq_ofNat_of_zero_le hlen
  have hbytes : req.bytes = window req.buffer 0 n := by
    rw [WriteIoReq.bytes, hn, Int.toNat_natCast]
  rw [hbytes] at hparse
  obtain ⟨hfrom, hcount⟩ := phrParseRequest_ok hparse
  rw [← hn] at hfrom
  refine ⟨hfrom, ?_⟩
  unfold rewriteHost parseHttpRequest
  rw [hn, Int.toNat_natCast, hparse]
  simp only [hsome, if_true]
  -- the table has no more entries than the loop looks at
  rw [modifyHttpHeaders_eq, List.take_of_length_le hcount]
  cases modifyEntries n hostHeader req.buffer parsed.headers with
  | error f => rfl
  | ok m' => simp [Except.bind, Except.map, WriteIoReq.bytes]

theorem rewriteHost_unparsed {req : WriteIoReq}
    (h : ∀ parsed, phrParseRequest req.bytes maxNumHeaders = .ok parsed → ¬ 0 < parsed.consumed) :
    rewriteHost req = .ok req := by
  unfold rewriteHost parseHttpRequest
  cases hparse : phrParseRequest (window req.buffer 0 req.sendNbytes.toNat) maxNumHeaders with
  | error code => rfl
  | ok parsed => exact if_neg (h parsed hparse)

/-- **The rewriting reads the request only**: what becomes of its bytes does not
depend on the memory around them. -/
theorem rewriteHost_bytes {req : WriteIoReq} (hlen : 0 ≤ req.sendNbytes) :
    (rewriteHost req).map WriteIoReq.bytes = hostRewritten req.bytes := by
  have hof := requestOf_bytes req.bytes
  by_cases hsome : ∃ parsed, phrParseRequest req.bytes maxNumHeaders = .ok parsed ∧
      0 < parsed.consumed
  · obtain ⟨parsed, hparse, hpos⟩ := hsome
    obtain ⟨hfrom, hreq⟩ := rewriteHost_parsed hparse hpos hlen
    obtain ⟨-, hown⟩ := @rewriteHost_parsed (requestOf req.bytes) parsed
      (by rw [hof]; exact hparse) hpos (by simp [requestOf])
    have hsize : (requestOf req.bytes).sendNbytes = req.sendNbytes := by
      simp [requestOf, WriteIoReq.bytes, hlen]
    rw [hsize] at hown
    rw [hostRewritten, hreq, hown]
    obtain ⟨n, hn⟩ := Int.eq_ofNat_of_zero_le hlen
    -- the two memories differ around the request alone
    have hagree : AgreeBelow n req.buffer (requestOf req.bytes).buffer := by
      refine .of_window ?_
      rw [WriteIoReq.bytes, hsize, hn, Int.toNat_natCast] at hof
      rw [hof, WriteIoReq.bytes, hn, Int.toNat_natCast]
    rw [hn] at hfrom ⊢
    exact modifyEntries_congr rfl hagree le_rfl hfrom
  · push Not at hsome
    have hnone : ∀ parsed, phrParseRequest req.bytes maxNumHeaders = .ok parsed →
        ¬ 0 < parsed.consumed := fun parsed hparse => not_lt.mpr (hsome parsed hparse)
    rw [hostRewritten, rewriteHost_unparsed hnone,
      @rewriteHost_unparsed (requestOf req.bytes) (by rwa [hof])]
    exact congrArg Except.ok hof.symm

/-- **A request stays as it is** exactly when its Host is untouched. -/
theorem hostRewritten_eq_iff (bytes : List Byte) :
    hostRewritten bytes = .ok bytes ↔ HostUntouched bytes := by
  have hof := requestOf_bytes bytes
  by_cases hsome : ∃ parsed, phrParseRequest bytes maxNumHeaders = .ok parsed ∧
      0 < parsed.consumed
  · obtain ⟨parsed, hparse, hpos⟩ := hsome
    have hunique : HostUntouched bytes ↔
        Untouched (requestOf bytes).buffer hostHeader parsed.headers := by
      refine ⟨fun h => h parsed hparse hpos, fun h parsed' hparse' _ => ?_⟩
      rw [hparse] at hparse'
      cases hparse'
      exact h
    obtain ⟨hfrom, hown⟩ := @rewriteHost_parsed (requestOf bytes) parsed
      (by rw [hof]; exact hparse) hpos (by simp [requestOf])
    rw [hunique, hostRewritten, hown]
    constructor
    · intro h
      by_contra hnot
      cases hend : modifyEntries (requestOf bytes).sendNbytes hostHeader
          (requestOf bytes).buffer parsed.headers with
      | error f =>
          rw [hend] at h
          cases h
      | ok m' =>
          obtain ⟨k, h0, hk, hne⟩ := modifyEntries_changes hostHeader_plain hfrom hnot hend
          rw [hend] at h
          have hsame := (Except.ok.inj h).trans hof.symm
          exact hne (AgreeBelow.of_window hsame k h0 hk)
    · intro h
      rw [modifyEntries_untouched h]
      exact congrArg Except.ok hof
  · push Not at hsome
    refine iff_of_true ?_ fun parsed hparse hpos => absurd (hsome parsed hparse) (not_le.mpr hpos)
    rw [hostRewritten, rewriteHost_unparsed fun parsed hparse => ?_]
    · exact congrArg Except.ok hof
    · rw [hof] at hparse
      exact not_lt.mpr (hsome parsed hparse)

end Zroxy
