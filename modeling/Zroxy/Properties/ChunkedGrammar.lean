import Zroxy.Properties.ChunkedBody

/-!
# What the chunked decoder accepts

For each part of a body, what the decoder does with its text, whatever follows,
and conversely that it is done with nothing else.
-/

namespace Zroxy

open OffsetMemory Transducers Pico PhrChunkedDecoder

namespace PhrChunkedDecoder

variable {d : PhrChunkedDecoder} {w rest : List Byte} {consumeTrailer : Bool}

/-! ## Bytes that are passed over -/

theorem feed_skip {p : Byte → Prop} (hskip : ∀ c, p c → decodeByte d c = .next d [])
    {pre : List Byte} (hpre : ∀ c ∈ pre, p c) (w : List Byte) :
    feed decodeByte d (pre ++ w) = feed decodeByte d w := by
  induction pre with
  | nil => rfl
  | cons c pre ih =>
      obtain ⟨hc, hpre⟩ := List.forall_mem_cons.mp hpre
      rw [List.cons_append, feed_silent (hskip c hc), ih hpre]

theorem exists_skipped (p : Byte → Prop) [DecidablePred p] (w : List Byte) :
    ∃ pre rest, w = pre ++ rest ∧ (∀ c ∈ pre, p c) ∧ ∀ c ∈ rest.head?, ¬ p c := by
  induction w with
  | nil => exact ⟨[], [], rfl, by simp, by simp⟩
  | cons c w ih =>
      by_cases hc : p c
      · obtain ⟨pre, rest, rfl, hpre, hhead⟩ := ih
        exact ⟨c :: pre, rest, rfl, List.forall_mem_cons.mpr ⟨hc, hpre⟩, hhead⟩
      · refine ⟨[], c :: w, rfl, by simp, ?_⟩
        intro d hd
        cases hd
        exact hc

/-- The decoder is done, or inside the data of a chunk. -/
def Past (o : Outcome PhrChunkedDecoder Byte Byte) : Prop :=
  o.verdict = .done ∨ o.state.state = .inChunkData

theorem not_past {verdict : Verdict} (hverdict : verdict ≠ .done)
    (hstate : d.state ≠ .inChunkData) (out rest : List Byte) :
    ¬ Past ⟨verdict, d, out, rest⟩ := not_or.mpr ⟨hverdict, hstate⟩

theorem exists_stop {p : Byte → Prop} [DecidablePred p]
    (hskip : ∀ c, p c → decodeByte d c = .next d []) (hstate : d.state ≠ .inChunkData)
    (hpast : Past (feed decodeByte d w)) :
    ∃ pre c rest, w = pre ++ c :: rest ∧ (∀ c ∈ pre, p c) ∧ ¬ p c ∧
      feed decodeByte d w = feed decodeByte d (c :: rest) := by
  obtain ⟨pre, rest, rfl, hpre, hhead⟩ := exists_skipped p w
  rw [feed_skip hskip hpre] at hpast ⊢
  cases rest with
  | nil => exact absurd hpast (not_past (by decide) hstate _ _)
  | cons c rest => exact ⟨pre, c, rest, rfl, hpre, hhead c rfl, rfl⟩

/-! ## The line with the size -/

theorem decodeByte_hex (hstate : d.state = .inChunkSize) {c : Byte} (hhex : decodeHex c ≠ -1)
    (hroom : d.hexCount < maxHexCount) :
    decodeByte d c = .next { d with
      bytesLeftInChunk := d.bytesLeftInChunk * 16 + (decodeHex c).toNat
      hexCount := d.hexCount + 1 } [] := by
  rw [decodeByte, hstate]
  simp only
  rw [if_neg hhex, if_neg (Nat.ne_of_lt hroom)]

theorem feed_digits {digits : List Byte} (hstate : d.state = .inChunkSize)
    (hhex : ∀ c ∈ digits, decodeHex c ≠ -1) (hroom : d.hexCount + digits.length ≤ maxHexCount)
    (w : List Byte) :
    feed decodeByte d (digits ++ w) = feed decodeByte { d with
      bytesLeftInChunk := hexValue d.bytesLeftInChunk digits
      hexCount := d.hexCount + digits.length } w := by
  induction digits generalizing d with
  | nil => rfl
  | cons c digits ih =>
      obtain ⟨hc, hhex⟩ := List.forall_mem_cons.mp hhex
      rw [List.length_cons] at hroom
      have hcount : d.hexCount + 1 + digits.length = d.hexCount + (digits.length + 1) := by omega
      have hrest := ih (d := { d with
        bytesLeftInChunk := d.bytesLeftInChunk * 16 + (decodeHex c).toNat
        hexCount := d.hexCount + 1 }) hstate hhex (hcount ▸ hroom)
      rw [List.cons_append, feed_silent (decodeByte_hex hstate hc (by omega)), hrest]
      simp only [hexValue, List.foldl_cons, List.length_cons, hcount]

theorem feed_size_end (hstate : d.state = .inChunkSize) (hcount : d.hexCount ≠ 0)
    {c : Byte} (hhex : decodeHex c = -1) (w : List Byte) :
    feed decodeByte d (c :: w) =
      feed decodeByte { d with hexCount := 0, state := .inChunkExt } (c :: w) := by
  have hsame : decodeByte d c =
      decodeByte { d with hexCount := 0, state := .inChunkExt } c := by
    simp only [decodeByte, hstate]
    rw [if_pos hhex, if_neg hcount]
  rw [feed, feed, hsame]

def afterSize (consumeTrailer : Bool) (size : ℕ) : PhrChunkedDecoder :=
  ⟨size, consumeTrailer, 0, .inChunkExt⟩

theorem feed_sizeLine (t : SizeLine) (consumeTrailer : Bool) (w : List Byte) :
    feed decodeByte (zero consumeTrailer) (t.bytes ++ w) =
      feed decodeByte (afterSize consumeTrailer t.size) (10 :: w) := by
  have hdigits := List.length_pos_iff.mpr t.ne_nil
  have hfits := t.fits
  have hcount : (zero consumeTrailer).hexCount + t.digits.length ≠ 0 := by
    simp only [zero]
    omega
  rw [SizeLine.bytes, List.append_assoc, List.append_assoc,
    feed_digits rfl t.hex (by simp only [zero]; omega)]
  have hext : ∀ c, c ≠ 10 → decodeByte (afterSize consumeTrailer t.size) c =
      .next (afterSize consumeTrailer t.size) [] := by
    intro c hc
    simp [decodeByte, afterSize, extByte, hc]
  have hskip : feed decodeByte (afterSize consumeTrailer t.size) (t.ext ++ ([10] ++ w)) =
      feed decodeByte (afterSize consumeTrailer t.size) (10 :: w) := feed_skip hext t.noLf _
  rw [← hskip]
  -- the first byte behind the digits is no digit
  cases hcase : t.ext with
  | nil => exact feed_size_end rfl hcount (by decide) w
  | cons c ext =>
      have hstart := t.start
      rw [hcase] at hstart
      exact feed_size_end rfl hcount (hstart c rfl) _

theorem feed_size_fail (hstate : d.state = .inChunkSize) {c : Byte}
    (hfail : if decodeHex c = -1 then d.hexCount = 0 else d.hexCount = maxHexCount)
    (w : List Byte) : feed decodeByte d (c :: w) = ⟨.failed, d, [], c :: w⟩ := by
  apply feed_fail
  simp only [decodeByte, hstate]
  split
  · rename_i hhex
    rw [if_pos hhex] at hfail
    rw [if_pos hfail]
  · rename_i hhex
    rw [if_neg hhex] at hfail
    rw [if_pos hfail]

/-- The digit behind a full size is an error, so a decoder does not get past it. -/
theorem not_past_digits {digits : List Byte} (hhex : ∀ c ∈ digits, decodeHex c ≠ -1)
    (hmany : maxHexCount < digits.length) (behind : List Byte) :
    ¬Past (feed decodeByte (zero consumeTrailer) (digits ++ behind)) := by
  have hlength : (digits.take maxHexCount).length = maxHexCount := by
    rw [List.length_take]
    omega
  have htake : ∀ c ∈ digits.take maxHexCount, decodeHex c ≠ -1 :=
    fun c hc => hhex c (List.mem_of_mem_take hc)
  have hroom : (zero consumeTrailer).hexCount + (digits.take maxHexCount).length ≤
      maxHexCount := by
    simp [zero, hlength]
  rw [← List.take_append_drop maxHexCount digits, List.append_assoc,
    feed_digits rfl htake hroom, hlength]
  cases hdrop : digits.drop maxHexCount with
  | nil =>
      rw [List.drop_eq_nil_iff] at hdrop
      exact absurd hdrop (Nat.not_le.mpr hmany)
  | cons c tail =>
      have hc : decodeHex c ≠ -1 := by
        apply hhex
        apply List.mem_of_mem_drop
        rw [hdrop]
        exact List.mem_cons_self
      rw [List.cons_append, feed_size_fail rfl (by simp [hc, zero])]
      exact not_past (by decide) (by simp [zero]) _ _

theorem exists_sizeLine (hpast : Past (feed decodeByte (zero consumeTrailer) w)) :
    ∃ t : SizeLine, ∃ rest, w = t.bytes ++ rest := by
  obtain ⟨digits, behind, rfl, hhex, hhead⟩ := exists_skipped (fun c => decodeHex c ≠ -1) w
  by_cases hfits : digits.length ≤ maxHexCount
  · have hroom : (zero consumeTrailer).hexCount + digits.length ≤ maxHexCount := by
      simpa [zero] using hfits
    rw [feed_digits rfl hhex hroom] at hpast
    cases behind with
    | nil => exact absurd hpast (not_past (by decide) (by simp [zero]) _ _)
    | cons c behind =>
        have hc : decodeHex c = -1 := not_not.mp (hhead c rfl)
        by_cases hnil : digits = []
        · rw [feed_size_fail rfl (by simp [hc, hnil, zero])] at hpast
          exact absurd hpast (not_past (by decide) (by simp [zero]) _ _)
        · have hcount : (zero consumeTrailer).hexCount + digits.length ≠ 0 := by
            have hpos := List.length_pos_iff.mpr hnil
            omega
          rw [feed_size_end rfl hcount hc] at hpast
          have hext : ∀ size : ℕ, ∀ c : Byte, c ≠ 10 →
              decodeByte ⟨size, (zero consumeTrailer).consumeTrailer, 0, .inChunkExt⟩ c =
                .next ⟨size, (zero consumeTrailer).consumeTrailer, 0, .inChunkExt⟩ [] := by
            intro size c hc
            simp [decodeByte, extByte, hc]
          obtain ⟨ext, lf, rest, hbehind, hnoLf, hlf, -⟩ := exists_stop (hext _) (by simp) hpast
          have hstart : ∀ c' ∈ ext.head?, decodeHex c' = -1 := by
            intro c' hc'
            cases ext with
            | nil => cases hc'
            | cons e ext =>
                cases hc'
                cases hbehind
                exact hc
          refine ⟨⟨digits, hnil, hhex, hfits, ext, hnoLf, hstart⟩, rest, ?_⟩
          simp [SizeLine.bytes, hbehind, not_not.mp hlf]
  · exact absurd hpast (not_past_digits hhex (Nat.not_le.mp hfits) behind)

/-! ## Chunks -/

def afterData (consumeTrailer : Bool) : PhrChunkedDecoder := ⟨0, consumeTrailer, 0, .inChunkCrlf⟩

theorem afterData_cr (consumeTrailer : Bool) (c : Byte) (hc : c = 13) :
    decodeByte (afterData consumeTrailer) c = .next (afterData consumeTrailer) [] := by
  simp [decodeByte, afterData, hc]

theorem feed_crlf (consumeTrailer : Bool) (n : ℕ) (w : List Byte) :
    feed decodeByte (afterData consumeTrailer) (List.replicate n 13 ++ 10 :: w) =
      feed decodeByte (zero consumeTrailer) w := by
  rw [feed_skip (afterData_cr consumeTrailer) fun c hc => List.eq_of_mem_replicate hc]
  exact feed_silent (by simp [decodeByte, afterData, zero])

theorem feed_afterSize {size : ℕ} (hsize : size ≠ 0) (consumeTrailer : Bool) (w : List Byte) :
    feed decodeByte (afterSize consumeTrailer size) (10 :: w) =
      feed decodeByte ⟨size, consumeTrailer, 0, .inChunkData⟩ w :=
  feed_silent (by simp [decodeByte, afterSize, extByte, hsize])

/-- **A chunk** is decoded to its data. -/
theorem feed_chunk (t : ChunkText) (consumeTrailer : Bool) (w : List Byte) :
    feed decodeByte (zero consumeTrailer) (t.bytes ++ w) =
      { feed decodeByte (zero consumeTrailer) w with
        out := t.data ++ (feed decodeByte (zero consumeTrailer) w).out } := by
  have hpos : 0 < t.line.size := by
    rw [← t.length_data]
    exact List.length_pos_iff.mpr t.ne_nil
  have hbytes : t.bytes ++ w =
      t.line.bytes ++ (t.data ++ (List.replicate t.crs 13 ++ 10 :: w)) := by
    simp [ChunkText.bytes]
  rw [hbytes, feed_sizeLine, feed_afterSize (Nat.ne_of_gt hpos),
    feed_data_full rfl hpos t.length_data]
  have hcrlf := feed_crlf consumeTrailer t.crs w
  simp only [afterData] at hcrlf
  rw [hcrlf]

theorem feed_chunks (chunks : List ChunkText) (consumeTrailer : Bool) (w : List Byte) :
    feed decodeByte (zero consumeTrailer) (chunks.flatMap ChunkText.bytes ++ w) =
      { feed decodeByte (zero consumeTrailer) w with
        out := chunks.flatMap ChunkText.data ++
          (feed decodeByte (zero consumeTrailer) w).out } := by
  induction chunks with
  | nil => rfl
  | cons chunk chunks ih =>
      rw [List.flatMap_cons, List.append_assoc, feed_chunk, ih, List.flatMap_cons,
        List.append_assoc]

/-- Behind a size that is not 0 and as many bytes, the decoder is past only behind
the chunk. -/
theorem exists_chunk {t : SizeLine} (hsize : t.size ≠ 0) (hlong : t.size ≤ w.length)
    (hpast : Past (feed decodeByte (zero consumeTrailer) (t.bytes ++ w))) :
    ∃ chunk : ChunkText, ∃ rest, t.bytes ++ w = chunk.bytes ++ rest := by
  rw [feed_sizeLine, feed_afterSize hsize] at hpast
  have hlength : (w.take t.size).length = t.size := by
    rw [List.length_take]
    omega
  rw [← List.take_append_drop t.size w,
    feed_data_full rfl (Nat.pos_of_ne_zero hsize) hlength] at hpast
  obtain ⟨crs, c, rest, hdrop, hcrs, hc, hstop⟩ :=
    exists_stop (afterData_cr consumeTrailer) (by simp [afterData]) hpast
  have hpast' : Past (feed decodeByte (afterData consumeTrailer) (c :: rest)) := by
    rw [← hstop]
    exact hpast
  have hlf : c = 10 := by
    by_contra hlf
    have hbyte : decodeByte (afterData consumeTrailer) c = .fail (afterData consumeTrailer) := by
      simp [decodeByte, afterData, hc, hlf]
    rw [feed_fail hbyte] at hpast'
    exact absurd hpast' (not_past (by decide) (by simp [afterData]) _ _)
  have hne : w.take t.size ≠ [] := by
    intro hnil
    rw [hnil] at hlength
    exact hsize hlength.symm
  have hreplicate : List.replicate crs.length 13 = crs :=
    (List.eq_replicate_length.mpr hcrs).symm
  have hw : w = w.take t.size ++ (List.replicate crs.length 13 ++ 10 :: rest) := by
    rw [hreplicate, ← hlf, ← hdrop, List.take_append_drop]
  refine ⟨⟨t, w.take t.size, hne, hlength, crs.length⟩, rest, ?_⟩
  calc t.bytes ++ w
      = t.bytes ++ (w.take t.size ++ (List.replicate crs.length 13 ++ 10 :: rest)) :=
        congrArg (t.bytes ++ ·) hw
    _ = _ := by simp [ChunkText.bytes]

/-! ## The trailer -/

def lineHead : PhrChunkedDecoder := ⟨0, true, 0, .inTrailersLineHead⟩

def lineMiddle : PhrChunkedDecoder := ⟨0, true, 0, .inTrailersLineMiddle⟩

theorem lineHead_cr (c : Byte) (hc : c = 13) : decodeByte lineHead c = .next lineHead [] := by
  simp [decodeByte, lineHead, hc]

theorem lineMiddle_ne (c : Byte) (hc : c ≠ 10) : decodeByte lineMiddle c = .next lineMiddle [] := by
  simp [decodeByte, lineMiddle, hc]

theorem feed_trailerLine (t : TrailerLine) (w : List Byte) :
    feed decodeByte lineHead (t.bytes ++ w) = feed decodeByte lineHead w := by
  have hbytes : t.bytes ++ w =
      List.replicate t.crs 13 ++ t.first :: (t.content ++ 10 :: w) := by
    simp [TrailerLine.bytes]
  have hfirst : decodeByte lineHead t.first = .next lineMiddle [] := by
    simp [decodeByte, lineHead, lineMiddle, t.ne_cr, t.ne_lf]
  have hlf : decodeByte lineMiddle 10 = .next lineHead [] := by
    simp [decodeByte, lineHead, lineMiddle]
  rw [hbytes, feed_skip lineHead_cr fun c hc => List.eq_of_mem_replicate hc, feed_silent hfirst,
    feed_skip lineMiddle_ne t.noLf, feed_silent hlf]

theorem feed_trailer (t : TrailerText) (w : List Byte) :
    feed decodeByte lineHead (t.bytes ++ w) = ⟨.done, lineHead, [], w⟩ := by
  obtain ⟨lines, crs⟩ := t
  induction lines with
  | nil =>
      have hlf : decodeByte lineHead 10 = .stop lineHead [] := by
        simp [decodeByte, lineHead]
      have hbytes : (TrailerText.mk [] crs).bytes ++ w = List.replicate crs 13 ++ 10 :: w := by
        simp [TrailerText.bytes]
      rw [hbytes, feed_skip lineHead_cr fun c hc => List.eq_of_mem_replicate hc, feed_stop hlf]
  | cons line lines ih =>
      have hbytes : (TrailerText.mk (line :: lines) crs).bytes ++ w =
          line.bytes ++ ((TrailerText.mk lines crs).bytes ++ w) := by
        simp [TrailerText.bytes]
      rw [hbytes, feed_trailerLine, ih]

theorem exists_trailer (hdone : (feed decodeByte lineHead w).verdict = .done) :
    ∃ t : TrailerText, ∃ rest, w = t.bytes ++ rest := by
  induction hn : w.length using Nat.strong_induction_on generalizing w with
  | _ n ih =>
      obtain ⟨crs, c, rest, rfl, hcrs, hc, hstop⟩ :=
        exists_stop lineHead_cr (by simp [lineHead]) (Or.inl hdone)
      have hreplicate : List.replicate crs.length 13 = crs :=
        (List.eq_replicate_length.mpr hcrs).symm
      rw [hstop] at hdone
      by_cases hlf : c = 10
      · refine ⟨⟨[], crs.length⟩, rest, ?_⟩
        simp [TrailerText.bytes, hreplicate, hlf]
      · have hfirst : decodeByte lineHead c = .next lineMiddle [] := by
          simp [decodeByte, lineHead, lineMiddle, hc, hlf]
        rw [feed_silent hfirst] at hdone
        obtain ⟨content, lf, rest', rfl, hnoLf, hlf', hstop'⟩ :=
          exists_stop lineMiddle_ne (by simp [lineMiddle]) (Or.inl hdone)
        obtain rfl : lf = 10 := not_not.mp hlf'
        have hend : decodeByte lineMiddle 10 = .next lineHead [] := by
          simp [decodeByte, lineHead, lineMiddle]
        rw [hstop', feed_silent hend] at hdone
        have hshorter : rest'.length < n := by
          rw [← hn]
          simp
          omega
        obtain ⟨⟨lines, crs'⟩, rest'', rfl⟩ := ih _ hshorter hdone rfl
        refine ⟨⟨⟨crs.length, c, hc, hlf, content, hnoLf⟩ :: lines, crs'⟩, rest'', ?_⟩
        simp [TrailerText.bytes, TrailerLine.bytes, hreplicate]

/-! ## Bodies -/

theorem last_stop : decodeByte (afterSize false 0) 10 = .stop (afterSize false 0) [] := by
  simp [decodeByte, afterSize, extByte]

theorem last_trailer : decodeByte (afterSize true 0) 10 = .next lineHead [] := by
  simp [decodeByte, afterSize, extByte, lineHead]

def atEnd : Bool → PhrChunkedDecoder
  | true => lineHead
  | false => afterSize false 0

/-- **A body** is decoded to its payload, whatever follows it. -/
theorem feed_render (t : ChunkedText consumeTrailer) (w : List Byte) :
    feed decodeByte (zero consumeTrailer) (t.render ++ w) =
      ⟨.done, atEnd consumeTrailer, t.payload, w⟩ := by
  obtain ⟨chunks, last, hlast, trailer, hconsumed⟩ := t
  have hend : feed decodeByte (zero consumeTrailer)
      (last.bytes ++ ((trailer.map TrailerText.bytes).getD [] ++ w)) =
        ⟨.done, atEnd consumeTrailer, [], w⟩ := by
    rw [feed_sizeLine, hlast]
    cases trailer with
    | none =>
        subst hconsumed
        exact feed_stop last_stop
    | some trailer =>
        subst hconsumed
        exact (feed_silent last_trailer).trans (feed_trailer trailer w)
  rw [ChunkedText.render, List.append_assoc, List.append_assoc, feed_chunks, hend]
  simp [ChunkedText.payload]

/-- The decoder is done with nothing else. -/
theorem exists_chunkedText (hdone : (feed decodeByte (zero consumeTrailer) w).verdict = .done) :
    ∃ t : ChunkedText consumeTrailer, ∃ rest, w = t.render ++ rest := by
  induction hn : w.length using Nat.strong_induction_on generalizing w with
  | _ n ih =>
      obtain ⟨line, behind, rfl⟩ := exists_sizeLine (Or.inl hdone)
      by_cases hsize : line.size = 0
      · cases consumeTrailer with
        | false =>
            refine ⟨⟨[], line, hsize, none, rfl⟩, behind, ?_⟩
            simp [ChunkedText.render]
        | true =>
            rw [feed_sizeLine, hsize, feed_silent last_trailer] at hdone
            obtain ⟨trailer, rest, rfl⟩ := exists_trailer hdone
            refine ⟨⟨[], line, hsize, some trailer, rfl⟩, rest, ?_⟩
            simp [ChunkedText.render]
      · have hlong : line.size ≤ behind.length := by
          by_contra hshort
          rw [feed_sizeLine, feed_afterSize hsize,
            feed_data_short rfl (Nat.not_le.mp hshort)] at hdone
          cases hdone
        obtain ⟨chunk, rest, hchunk⟩ := exists_chunk hsize hlong (Or.inl hdone)
        rw [hchunk, feed_chunk] at hdone
        have hshorter : rest.length < n := by
          have hpos := List.length_pos_iff.mpr chunk.ne_nil
          rw [← hn, hchunk]
          simp [ChunkText.bytes]
          omega
        obtain ⟨⟨chunks, last, hlast, trailer, hconsumed⟩, rest', rfl⟩ := ih _ hshorter hdone rfl
        refine ⟨⟨chunk :: chunks, last, hlast, trailer, hconsumed⟩, rest', ?_⟩
        rw [hchunk]
        simp [ChunkedText.render]

/-! ## Inside the data of a chunk -/

theorem feed_lineHead_state (w : List Byte) :
    (feed decodeByte lineHead w).state.state ≠ .inChunkData := by
  have hkept := @feed_invariant _ _ _ decodeByte lineHead w
    (fun d => d = lineHead ∨ d = lineMiddle) ?_ (Or.inl rfl)
  · rcases hkept with h | h
    · rw [h]
      simp [lineHead]
    · rw [h]
      simp [lineMiddle]
  · rintro d c (rfl | rfl)
    · by_cases hcr : c = 13
      · exact Or.inl (by rw [lineHead_cr c hcr]; rfl)
      · by_cases hlf : c = 10
        · exact Or.inl (by simp [decodeByte, lineHead, hlf, Step.state])
        · exact Or.inr (by simp [decodeByte, lineHead, lineMiddle, hcr, hlf, Step.state])
    · by_cases hlf : c = 10
      · exact Or.inl (by simp [decodeByte, lineHead, lineMiddle, hlf, Step.state])
      · exact Or.inr (by rw [lineMiddle_ne c hlf]; rfl)

theorem feed_inData (chunks : List ChunkText) {line : SizeLine} {data : List Byte}
    (hshort : data.length < line.size) (consumeTrailer : Bool) :
    feed decodeByte (zero consumeTrailer)
        (chunks.flatMap ChunkText.bytes ++ (line.bytes ++ data)) =
      ⟨.more, ⟨line.size - data.length, consumeTrailer, 0, .inChunkData⟩,
        chunks.flatMap ChunkText.data ++ data, []⟩ := by
  rw [feed_chunks, feed_sizeLine, feed_afterSize (by omega), feed_data_short rfl hshort]

theorem exists_inData
    (hstate : (feed decodeByte (zero consumeTrailer) w).state.state = .inChunkData) :
    ∃ (chunks : List ChunkText) (line : SizeLine) (data : List Byte),
      w = chunks.flatMap ChunkText.bytes ++ (line.bytes ++ data) ∧ data.length < line.size := by
  induction hn : w.length using Nat.strong_induction_on generalizing w with
  | _ n ih =>
      obtain ⟨line, behind, rfl⟩ := exists_sizeLine (Or.inr hstate)
      by_cases hsize : line.size = 0
      · rw [feed_sizeLine, hsize] at hstate
        cases consumeTrailer with
        | false =>
            rw [feed_stop last_stop] at hstate
            cases hstate
        | true =>
            rw [feed_silent last_trailer] at hstate
            exact absurd hstate (feed_lineHead_state behind)
      · by_cases hlong : line.size ≤ behind.length
        · obtain ⟨chunk, rest, hchunk⟩ := exists_chunk hsize hlong (Or.inr hstate)
          rw [hchunk, feed_chunk] at hstate
          have hshorter : rest.length < n := by
            have hpos := List.length_pos_iff.mpr chunk.ne_nil
            rw [← hn, hchunk]
            simp [ChunkText.bytes]
            omega
          obtain ⟨chunks, line', data, rfl, hshort⟩ := ih _ hshorter hstate rfl
          refine ⟨chunk :: chunks, line', data, ?_, hshort⟩
          rw [hchunk, List.flatMap_cons, List.append_assoc]
        · exact ⟨[], line, behind, rfl, Nat.not_le.mp hlong⟩

end PhrChunkedDecoder

/-- **What the decoder is done with.** Calls that start from a zero-filled
decoder come to an end with `data`, and with `left` behind the body, exactly if
they bring the text of a body that has `data` as its payload, and then `left`. -/
theorem decodeCalls_complete_iff (consumeTrailer : Bool) (calls : List (Mem Byte × ℕ))
    (data left : List Byte) :
    (∃ c, decodeCalls (zero consumeTrailer) calls = some c ∧ 0 ≤ c.ret ∧
        c.data = data ∧ c.left = left) ↔
      ∃ t : ChunkedText consumeTrailer, contents calls = t.render ++ left ∧ data = t.payload := by
  have hcalls := decodeCalls_eq (wellFormed_zero consumeTrailer) calls
  constructor
  · rintro ⟨c, hc, hret, rfl, rfl⟩
    rw [hcalls] at hc
    cases hc
    have hdone : (feed decodeByte (zero consumeTrailer) (contents calls)).verdict = .done := by
      cases hverdict : (feed decodeByte (zero consumeTrailer) (contents calls)).verdict with
      | done => rfl
      | more => simp [received, returned, hverdict] at hret
      | failed => simp [received, returned, hverdict] at hret
    obtain ⟨t, rest, hrender⟩ := exists_chunkedText hdone
    refine ⟨t, ?_⟩
    rw [hrender, feed_render]
    exact ⟨rfl, rfl⟩
  · rintro ⟨t, hrender, rfl⟩
    refine ⟨_, hcalls, ?_⟩
    rw [hrender, feed_render]
    simp [received, returned]

/-- **What `phr_decode_chunked_is_in_data` tells.** After calls that start from a
zero-filled decoder it is true exactly if they bring whole chunks, the line with
the size of another, and less data than that says. The calls have then returned
`-2`, and delivered all the data brought. -/
theorem isInData_iff (consumeTrailer : Bool) (calls : List (Mem Byte × ℕ)) :
    ∃ c, decodeCalls (zero consumeTrailer) calls = some c ∧
      (phrDecodeChunkedIsInData c.decoder = true ↔
        ∃ (chunks : List ChunkText) (line : SizeLine) (data : List Byte),
          contents calls = chunks.flatMap ChunkText.bytes ++ (line.bytes ++ data) ∧
          data.length < line.size ∧ c.ret = -2 ∧
          c.data = chunks.flatMap ChunkText.data ++ data) := by
  refine ⟨_, decodeCalls_eq (wellFormed_zero consumeTrailer) calls, ?_⟩
  rw [phrDecodeChunkedIsInData, decide_eq_true_iff]
  constructor
  · intro hstate
    obtain ⟨chunks, line, data, hcontents, hshort⟩ := exists_inData hstate
    refine ⟨chunks, line, data, hcontents, hshort, ?_⟩
    rw [hcontents, feed_inData chunks hshort]
    exact ⟨rfl, rfl⟩
  · rintro ⟨chunks, line, data, hcontents, hshort, -, -⟩
    rw [hcontents, feed_inData chunks hshort]
    rfl

end Zroxy
