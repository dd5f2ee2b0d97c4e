import Zroxy.Parsers.FastScanning
import Zroxy.Parsers.TextParsing

/-!
# The fast scanners agree with the plain ones

What a fast scanner passes over in blocks are bytes that the plain loop would
pass over one by one, so that it may begin where the fast one stopped.
-/

namespace Zroxy

open Incremental Runs

namespace Pico

/-- A scan stopped at `r` after passing over bytes that do not satisfy `p`; when
it reports that it has found one that does, the cursor stands there. -/
def Skims (p : Byte → Bool) (buf : List Byte) (r : List Byte × Bool) : Prop :=
  ∃ pre, buf = pre ++ r.1 ∧ (∀ c ∈ pre, p c = false) ∧
    (r.2 = true → ∃ c ∈ r.1.head?, p c = true)

variable {p : Byte → Bool} {buf pre : List Byte} {r : List Byte × Bool}

theorem Skims.stay (p : Byte → Bool) (buf : List Byte) : Skims p buf (buf, false) :=
  ⟨[], rfl, by simp, fun h => by cases h⟩

theorem Skims.found (h : ∃ c ∈ buf.head?, p c = true) : Skims p buf (buf, true) :=
  ⟨[], rfl, by simp, fun _ => h⟩

theorem Skims.append (hpre : ∀ c ∈ pre, p c = false) (h : Skims p buf r) :
    Skims p (pre ++ buf) r := by
  obtain ⟨pre', rfl, hpre', hfound⟩ := h
  exact ⟨pre ++ pre', by simp, List.forall_mem_append.mpr ⟨hpre, hpre'⟩, hfound⟩

/-! ## Blocks of sixteen -/

theorem take_findIdx (p : Byte → Bool) (block : List Byte) :
    (∀ c ∈ block.take (block.findIdx p), p c = false) ∧
      (block.findIdx p < block.length →
        ∃ c ∈ (block.drop (block.findIdx p)).head?, p c = true) := by
  induction block with
  | nil => simp
  | cons c block ih =>
      rw [List.findIdx_cons]
      cases hc : p c with
      | true => exact ⟨by simp, fun _ => ⟨c, rfl, hc⟩⟩
      | false =>
          refine ⟨List.forall_mem_cons.mpr ⟨hc, ih.1⟩, fun h => ih.2 ?_⟩
          simpa using h

theorem findBlocks_skims (ranges : List Byte) {n : ℕ} (hn : 16 * n ≤ buf.length) :
    Skims (inRanges · ranges) buf (findBlocks ranges n buf) := by
  induction n generalizing buf with
  | zero => exact Skims.stay _ _
  | succ n ih =>
      have hblock : (buf.take 16).length = 16 := by
        rw [List.length_take]
        omega
      obtain ⟨k, hk⟩ : ∃ k, k = cmpestri ranges (buf.take 16) := ⟨_, rfl⟩
      have hscan := take_findIdx (inRanges · ranges) (buf.take 16)
      rw [show (buf.take 16).findIdx (inRanges · ranges) = k from hk.symm, hblock] at hscan
      obtain ⟨htake, hdrop⟩ := hscan
      have hle : k ≤ 16 := by
        have hlength : (buf.take 16).findIdx (inRanges · ranges) ≤ (buf.take 16).length :=
          List.findIdx_le_length
        rw [hblock] at hlength
        exact hk ▸ hlength
      rw [List.take_take, Nat.min_eq_left hle] at htake
      rw [findBlocks, ← hk]
      split
      · rename_i hne
        have hlt : k < 16 := by omega
        obtain ⟨c, hc, hin⟩ := hdrop hlt
        rw [List.head?_drop, List.getElem?_take_of_lt hlt, ← List.head?_drop] at hc
        have hskims := (Skims.found (p := (inRanges · ranges)) ⟨c, hc, hin⟩).append htake
        rwa [List.take_append_drop] at hskims
      · rename_i hne
        have hall : k = 16 := not_not.mp hne
        rw [hall] at htake
        have hshort : 16 * n ≤ (buf.drop 16).length := by
          rw [List.length_drop]
          omega
        have hskims := (ih hshort).append htake
        rwa [List.take_append_drop] at hskims

theorem findcharFast_skims (ranges buf : List Byte) :
    Skims (inRanges · ranges) buf (findcharFast ranges buf) :=
  findBlocks_skims ranges (Nat.mul_div_le buf.length 16)

/-! ## Tokens and paths -/

theorem forall_byte {P : Byte → Prop} (h : ∀ n : Fin 256, P (UInt8.ofNat n)) (c : Byte) : P c := by
  have hc := h ⟨c.toNat, c.toNat_lt⟩
  rwa [UInt8.ofNat_toNat] at hc

theorem tokenChar_of_inRanges {c : Byte} (h : inRanges c tokenRanges = false) :
    tokenChar c = true := by
  revert h
  refine forall_byte (P := fun c => inRanges c tokenRanges = false → tokenChar c = true) ?_ c
  decide +kernel

theorem isControl_eq_inRanges (c : Byte) : isControl c = inRanges c lineRanges := by
  refine forall_byte (P := fun c => isControl c = inRanges c lineRanges) ?_ c
  decide +kernel

theorem stopsLine_eq_isControl (c : Byte) : stopsLine c = isControl c := by
  refine forall_byte (P := fun c => stopsLine c = isControl c) ?_ c
  decide +kernel

theorem pathChar_of_inRanges {c : Byte} (h : inRanges c pathRanges = false) :
    32 < c ∧ c ≠ 127 := by
  revert h
  refine forall_byte (P := fun c => inRanges c pathRanges = false → 32 < c ∧ c ≠ 127) ?_ c
  decide +kernel

theorem parseTokenSse_eq {next : Byte} (hnext : tokenChar next = false) (buf : List Byte) :
    parseTokenSse next buf = parseToken next buf := by
  obtain ⟨pre, hbuf, hpre, -⟩ := findcharFast_skims tokenRanges buf
  have hskip : parseToken next buf = parseToken next (findcharFast tokenRanges buf).1 := by
    conv_lhs => rw [hbuf]
    rw [parseToken_eq_scan, parseToken_eq_scan]
    refine scan_append (fun c hc => ?_) _
    have htoken := tokenChar_of_inRanges (hpre c hc)
    exact ⟨by simpa using ne_of_tokenChar htoken hnext, by simp [htoken]⟩
  rw [hskip, parseTokenSse]
  split
  · rename_i hend
    have hnil : (findcharFast tokenRanges buf).1 = [] := by
      simp at hend
      exact hend.2
    rw [hnil]
    rfl
  · rfl

theorem advanceTokenSse_eq (buf : List Byte) : advanceTokenSse buf = advanceToken buf := by
  obtain ⟨pre, hbuf, hpre, -⟩ := findcharFast_skims pathRanges buf
  have hskip : advanceToken buf = advanceToken (findcharFast pathRanges buf).1 := by
    conv_lhs => rw [hbuf]
    rw [advanceToken_eq_scan, advanceToken_eq_scan]
    exact scan_append (fun c hc => pathChar_iff.mpr (pathChar_of_inRanges (hpre c hc))) _
  rw [hskip, advanceTokenSse]
  split
  · rename_i hend
    have hnil : (findcharFast pathRanges buf).1 = [] := by
      simp at hend
      exact hend.2
    rw [hnil]
    rfl
  · rfl

/-! ## Lines -/

theorem lineLoop_append (hpre : ∀ c ∈ pre, isControl c = false) (buf : List Byte) :
    lineLoop (pre ++ buf) = lineLoop buf := by
  induction pre with
  | nil => rfl
  | cons c pre ih =>
      obtain ⟨hc, hpre⟩ := List.forall_mem_cons.mp hpre
      rw [List.cons_append, lineLoop, stopsLine_eq_isControl, if_neg (by simp [hc]), ih hpre]

/-- Where a scan has stopped, the rest of the function is the same as from the start. -/
theorem Skims.finishLine (h : Skims isControl buf r) (start : ℕ) :
    finishLine start r = (lineLoop buf).bind (foundCtl start) := by
  obtain ⟨pre, rfl, hpre, hfound⟩ := h
  rw [lineLoop_append hpre, Pico.finishLine]
  split
  · rename_i hr
    obtain ⟨c, hc, hcontrol⟩ := hfound hr
    obtain ⟨tail, hcur⟩ := List.head?_eq_some_iff.mp hc
    rw [hcur, lineLoop, stopsLine_eq_isControl, if_pos hcontrol]
    rfl
  · rfl

theorem lineLoop_eq {start : ℕ} (h : buf.length ≤ start) :
    (lineLoop buf).bind (foundCtl start) =
      (getTokenToEol buf).map fun t => (start - buf.length + t.1, t.2) := by
  induction buf with
  | nil => rfl
  | cons c buf ih =>
      rw [lineLoop, getTokenToEol, stopsLine_eq_isControl]
      rw [List.length_cons] at h
      split
      · simp only [Except.bind, foundCtl]
        split
        · cases hlf : expectChar 10 buf with
          | error e => rfl
          | ok rest =>
              have hlength := congrArg List.length (expectChar_ok_iff.mp hlf)
              rw [List.length_cons] at hlength
              simp only [Except.map, List.length_cons, Except.ok.injEq, Prod.mk.injEq, and_true]
              omega
        · split
          · simp [Except.map]
          · rfl
      · rw [ih (by omega)]
        cases getTokenToEol buf with
        | error e => rfl
        | ok t =>
            simp only [Except.map, Except.bind, List.length_cons, Except.ok.injEq, Prod.mk.injEq,
              and_true]
            omega

theorem finishLine_eq (h : Skims isControl buf r) :
    finishLine buf.length r = getTokenToEol buf := by
  rw [h.finishLine, lineLoop_eq (le_refl _)]
  cases getTokenToEol buf with
  | error e => rfl
  | ok t => simp [Except.map]

theorem getTokenToEolSse_eq (buf : List Byte) : getTokenToEolSse buf = getTokenToEol buf := by
  refine finishLine_eq ?_
  have hskims := findcharFast_skims lineRanges buf
  simpa only [← isControl_eq_inRanges] using hskims

/-! ## The unrolled loop -/

theorem isControl_of_isPrintableAscii {c : Byte} (h : isPrintableAscii c = true) :
    isControl c = false := by
  have hstop := stopsLine_eq_isControl c
  rw [stopsLine, h] at hstop
  simpa using hstop.symm

theorem doit_skims (n : ℕ) (buf : List Byte) :
    Skims (fun c => !isPrintableAscii c) buf (doit n buf) := by
  induction n generalizing buf with
  | zero => exact Skims.stay _ _
  | succ n ih =>
      cases buf with
      | nil => exact Skims.stay _ _
      | cons c buf =>
          rw [doit]
          split
          · rename_i hc
            exact Skims.found ⟨c, rfl, hc⟩
          · rename_i hc
            have hpre : ∀ d ∈ [c], (!isPrintableAscii d) = false := by simpa using hc
            exact (ih buf).append hpre

theorem unrolledLoop_skims (fuel : ℕ) (buf : List Byte) :
    Skims isControl buf (unrolledLoop fuel buf) := by
  induction fuel generalizing buf with
  | zero => exact Skims.stay _ _
  | succ fuel ih =>
      rw [unrolledLoop]
      split
      · exact Skims.stay _ _
      · obtain ⟨pre, hbuf, hpre, -⟩ := doit_skims 8 buf
        have hplain : ∀ c ∈ pre, isControl c = false := fun c hc =>
          isControl_of_isPrintableAscii (by simpa using hpre c hc)
        rcases hdoit : doit 8 buf with ⟨cur, found⟩
        rw [hdoit] at hbuf
        rw [hbuf]
        cases found with
        | false => exact (ih cur).append hplain
        | true =>
            cases cur with
            | nil => exact (Skims.stay _ _).append hplain
            | cons c cur =>
                simp only
                split
                · rename_i hc
                  exact (Skims.found ⟨c, rfl, hc⟩).append hplain
                · rename_i hc
                  have hcons : ∀ d ∈ [c], isControl d = false := by simpa using hc
                  exact ((ih cur).append hcons).append hplain

/-- **The fast scanners agree with the plain ones**, however the parser is
compiled: with the unrolled loop or with blocks of sixteen bytes, on every input. -/
theorem fastScanners_eq (buf : List Byte) :
    getTokenToEolUnrolled buf = getTokenToEol buf ∧ getTokenToEolSse buf = getTokenToEol buf ∧
      advanceTokenSse buf = advanceToken buf ∧
      ∀ next, next = 32 ∨ next = 58 → parseTokenSse next buf = parseToken next buf := by
  refine ⟨finishLine_eq (unrolledLoop_skims buf.length buf), getTokenToEolSse_eq buf,
    advanceTokenSse_eq buf, ?_⟩
  rintro next (rfl | rfl)
  · exact parseTokenSse_eq (by decide) buf
  · exact parseTokenSse_eq (by decide) buf

end Pico

end Zroxy
