import Zroxy.Lib.Transducers
import Zroxy.Parsers.ChunkedDecoder

/-!
# Decoding in place

The chunked decoder reads a byte at a time (`decodeByte`), and every call of
`phr_decode_chunked` runs it over the buffer: the decoded data end up at the
front of the buffer and what was not read right behind them, nothing outside
the buffer is touched, and the chunk size never wraps around.
-/

namespace Zroxy

open OffsetMemory Transducers

/-! ## A byte at a time -/

namespace PhrChunkedDecoder

/-- The byte behind the chunk size: extensions are skipped up to LF. -/
def extByte (d : PhrChunkedDecoder) (c : Byte) : Step PhrChunkedDecoder Byte :=
  if c = 10 then
    if d.bytesLeftInChunk = 0 then
      if d.consumeTrailer then .next { d with state := .inTrailersLineHead } []
      else .stop d []
    else .next { d with state := .inChunkData } []
  else .next d []

/-- What the decoder does with a byte. -/
def decodeByte (d : PhrChunkedDecoder) (c : Byte) : Step PhrChunkedDecoder Byte :=
  match d.state with
  | .inChunkSize =>
      if Pico.decodeHex c = -1 then
        if d.hexCount = 0 then .fail d
        else extByte { d with hexCount := 0, state := .inChunkExt } c
      else if d.hexCount = Pico.maxHexCount then .fail d
      else .next { d with
        bytesLeftInChunk := d.bytesLeftInChunk * 16 + (Pico.decodeHex c).toNat
        hexCount := d.hexCount + 1 } []
  | .inChunkExt => extByte d c
  | .inChunkData =>
      .next { d with
        bytesLeftInChunk := d.bytesLeftInChunk - 1
        state := if d.bytesLeftInChunk = 1 then .inChunkCrlf else .inChunkData } [c]
  | .inChunkCrlf =>
      if c = 13 then .next d []
      else if c ≠ 10 then .fail d
      else .next { d with state := .inChunkSize } []
  | .inTrailersLineHead =>
      if c = 13 then .next d []
      else if c = 10 then .stop d []
      else .next { d with state := .inTrailersLineMiddle } []
  | .inTrailersLineMiddle =>
      if c = 10 then .next { d with state := .inTrailersLineHead } [] else .next d []

/-- What holds of `bytes_left_in_chunk` and `_hex_count` in each of the states. -/
def FieldsIn (bytesLeft hexCount : ℕ) : ChunkedState → Prop
  | .inChunkSize => hexCount ≤ Pico.maxHexCount ∧ bytesLeft < 16 ^ hexCount
  | .inChunkExt => hexCount = 0 ∧ bytesLeft < Pico.sizeValues
  | .inChunkData => hexCount = 0 ∧ 0 < bytesLeft ∧ bytesLeft < Pico.sizeValues
  | _ => hexCount = 0 ∧ bytesLeft = 0

def WellFormed (d : PhrChunkedDecoder) : Prop := FieldsIn d.bytesLeftInChunk d.hexCount d.state

theorem wellFormed_zero (consumeTrailer : Bool) : (zero consumeTrailer).WellFormed :=
  ⟨Nat.zero_le _, Nat.one_pos⟩

theorem WellFormed.fields {d : PhrChunkedDecoder} (h : d.WellFormed) {state : ChunkedState}
    (hstate : d.state = state) : FieldsIn d.bytesLeftInChunk d.hexCount state :=
  hstate ▸ h

theorem decodeHex_lt (c : Byte) : Pico.decodeHex c < 16 := by
  have hc := c.toNat_lt
  simp only [Pico.decodeHex, UInt8.le_iff_toNat_le, Bool.and_eq_true, decide_eq_true_eq]
  split
  · rename_i h
    simp at h
    omega
  · split
    · rename_i h
      simp at h
      omega
    · split
      · rename_i h
        simp at h
        omega
      · omega

/-- A digit more, as long as there is room for it, keeps the size below the
next power of sixteen. -/
theorem digit_lt {size n : ℕ} {v : ℤ} (h : size < 16 ^ n) (hv : v < 16) :
    size * 16 + v.toNat < 16 ^ (n + 1) := by
  have hdigit : v.toNat < 16 := by omega
  rw [Nat.pow_succ]
  omega

theorem pow_le_sizeValues {n : ℕ} (h : n ≤ Pico.maxHexCount) : 16 ^ n ≤ Pico.sizeValues :=
  (Nat.pow_le_pow_right (by omega) h).trans (by decide)

theorem extByte_wellFormed {d : PhrChunkedDecoder} (h : d.WellFormed)
    (hstate : d.state = .inChunkExt) (c : Byte) : (extByte d c).state.WellFormed := by
  obtain ⟨hcount, hsize⟩ := h.fields hstate
  unfold extByte
  split
  · split
    · rename_i hlast
      split
      · exact ⟨hcount, hlast⟩
      · exact h
    · rename_i hmore
      exact ⟨hcount, Nat.pos_of_ne_zero hmore, hsize⟩
  · exact h

/-- **The fields stay within their bounds.** -/
theorem decodeByte_wellFormed (d : PhrChunkedDecoder) (c : Byte) (h : d.WellFormed) :
    (decodeByte d c).state.WellFormed := by
  unfold decodeByte
  cases hstate : d.state with
  | inChunkSize =>
      obtain ⟨hcount, hsize⟩ := h.fields hstate
      simp only
      split
      · split
        · exact h
        · have hext : WellFormed { d with hexCount := 0, state := .inChunkExt } :=
            ⟨rfl, Nat.lt_of_lt_of_le hsize (pow_le_sizeValues hcount)⟩
          exact extByte_wellFormed hext rfl c
      · split
        · exact h
        · rename_i hroom
          have hcount' : d.hexCount + 1 ≤ Pico.maxHexCount := by omega
          simp only [Step.state, WellFormed]
          exact ⟨hcount', digit_lt hsize (decodeHex_lt c)⟩
  | inChunkExt => exact extByte_wellFormed h hstate c
  | inChunkData =>
      obtain ⟨hcount, hpos, hsize⟩ := h.fields hstate
      show FieldsIn (d.bytesLeftInChunk - 1) d.hexCount
        (if d.bytesLeftInChunk = 1 then .inChunkCrlf else .inChunkData)
      split
      · exact ⟨hcount, by omega⟩
      · exact ⟨hcount, by omega, by omega⟩
  | inChunkCrlf =>
      obtain ⟨hcount, hsize⟩ := h.fields hstate
      simp only
      split
      · exact h
      · split
        · exact h
        · show FieldsIn d.bytesLeftInChunk d.hexCount .inChunkSize
          rw [hcount, hsize]
          exact ⟨Nat.zero_le _, Nat.one_pos⟩
  | inTrailersLineHead =>
      simp only
      split
      · exact h
      · split
        · exact h
        · have hfields := h.fields hstate
          exact hfields
  | inTrailersLineMiddle =>
      simp only
      split
      · have hfields := h.fields hstate
        exact hfields
      · exact h

/-! ## Chunk data -/

section Data

variable {d : PhrChunkedDecoder}

theorem decodeByte_data (hstate : d.state = .inChunkData) (c : Byte) :
    decodeByte d c = .next { d with
      bytesLeftInChunk := d.bytesLeftInChunk - 1
      state := if d.bytesLeftInChunk = 1 then .inChunkCrlf else .inChunkData } [c] := by
  rw [decodeByte, hstate]

theorem feed_data_short (hstate : d.state = .inChunkData) {w : List Byte}
    (hw : w.length < d.bytesLeftInChunk) :
    feed decodeByte d w =
      ⟨.more, { d with bytesLeftInChunk := d.bytesLeftInChunk - w.length }, w, []⟩ := by
  induction w generalizing d with
  | nil => rfl
  | cons c w ih =>
      rw [List.length_cons] at hw
      have hmore : ¬ d.bytesLeftInChunk = 1 := by omega
      rw [feed_next (decodeByte_data hstate c), if_neg hmore, ih rfl (by simp only; omega)]
      simp only [List.length_cons, List.singleton_append, Outcome.mk.injEq, and_true, true_and]
      rw [show d.bytesLeftInChunk - 1 - w.length = d.bytesLeftInChunk - (w.length + 1) by omega,
        hstate]

theorem feed_data_full (hstate : d.state = .inChunkData) {w : List Byte}
    (hpos : 0 < d.bytesLeftInChunk) (hw : w.length = d.bytesLeftInChunk) (rest : List Byte) :
    feed decodeByte d (w ++ rest) =
      { feed decodeByte { d with bytesLeftInChunk := 0, state := .inChunkCrlf } rest with
        out := w ++ (feed decodeByte
          { d with bytesLeftInChunk := 0, state := .inChunkCrlf } rest).out } := by
  induction w generalizing d with
  | nil =>
      rw [List.length_nil] at hw
      omega
  | cons c w ih =>
      rw [List.length_cons] at hw
      rw [List.cons_append, feed_next (decodeByte_data hstate c)]
      by_cases hlast : d.bytesLeftInChunk = 1
      · have hnil : w = [] := List.length_eq_zero_iff.mp (by omega)
        simp [hnil, hlast]
      · rw [if_neg hlast, ih rfl (by simp only; omega) (by simp only; omega)]
        rfl

end Data

end PhrChunkedDecoder

open PhrChunkedDecoder

/-! ## The loop -/

namespace Pico

variable {bufsz fuel : ℕ} {s s' : DecodeRun} {r : ℤ × DecodeRun} {ret : ℤ}

theorem decodeLoop_goOn (h : decodeStep bufsz s = .goOn s') :
    decodeLoop bufsz (fuel + 1) s = decodeLoop bufsz fuel s' := by
  rw [decodeLoop, h]

theorem decodeLoop_exit (h : decodeStep bufsz s = .exit ret s') :
    decodeLoop bufsz (fuel + 1) s = some (ret, s') := by
  rw [decodeLoop, h]

theorem decodeLoop_complete (h : decodeStep bufsz s = .complete s') :
    decodeLoop bufsz (fuel + 1) s = some ((bufsz : ℤ) - s'.src, s') := by
  rw [decodeLoop, h]

theorem decodeLoop_mono {fuel' : ℕ} (hle : fuel ≤ fuel')
    (h : decodeLoop bufsz fuel s = some r) : decodeLoop bufsz fuel' s = some r := by
  induction fuel generalizing fuel' s with
  | zero => cases h
  | succ fuel ih =>
      obtain ⟨fuel', rfl⟩ : ∃ k, fuel' = k + 1 := ⟨fuel' - 1, by omega⟩
      cases hstep : decodeStep bufsz s with
      | goOn s' =>
          rw [decodeLoop_goOn hstep] at h ⊢
          exact ih (Nat.le_of_succ_le_succ hle) h
      | exit ret s' =>
          rw [decodeLoop_exit hstep] at h ⊢
          exact h
      | complete s' =>
          rw [decodeLoop_complete hstep] at h ⊢
          exact h

/-- What `phr_decode_chunked` returns for an outcome. -/
def returned (o : Outcome PhrChunkedDecoder Byte Byte) : ℤ :=
  match o.verdict with
  | .more => -2
  | .failed => -1
  | .done => o.rest.length

/-- The loop, begun in `s`, has ended with `r`, and the outcome was `o`. -/
structure Decoded (bufsz : ℕ) (s : DecodeRun) (o : Outcome PhrChunkedDecoder Byte Byte)
    (r : ℤ × DecodeRun) : Prop where
  ret : r.1 = returned o
  decoder : r.2.decoder = o.state
  dst : r.2.dst = s.dst + o.out.length
  src : r.2.src + o.rest.length = bufsz
  le : r.2.dst ≤ r.2.src
  out : window r.2.buf 0 r.2.dst = window s.buf 0 s.dst ++ o.out
  rest : window r.2.buf r.2.src o.rest.length = o.rest
  frame : ∀ k : ℤ, k < 0 ∨ bufsz ≤ k → r.2.buf k = s.buf k

/-- What is left to read. -/
def DecodeRun.unread (bufsz : ℕ) (s : DecodeRun) : List Byte :=
  window s.buf s.src (bufsz - s.src)

theorem DecodeRun.unread_cons (h : s.src < bufsz) :
    s.unread bufsz = s.buf s.src :: s.advance.unread bufsz := by
  have hlength : bufsz - s.src = 1 + (bufsz - (s.src + 1)) := by omega
  rw [unread, hlength, window_add]
  simp [window, unread, advance]

theorem DecodeRun.length_unread (h : s.src ≤ bufsz) : s.src + (s.unread bufsz).length = bufsz := by
  rw [unread, window_length]
  omega

theorem DecodeRun.window_unread (s : DecodeRun) (bufsz : ℕ) :
    window s.buf s.src (s.unread bufsz).length = s.unread bufsz := by
  rw [unread, window_length]

theorem DecodeRun.unread_nil (h : s.src = bufsz) : s.unread bufsz = [] := by
  rw [unread, h, Nat.sub_self]
  rfl

/-! ### Bytes that are not data -/

def asStep (s : DecodeRun) : Step PhrChunkedDecoder Byte → DecodeStep
  | .next d _ => .goOn { s.advance with decoder := d }
  | .stop d _ => .complete { s.advance with decoder := d }
  | .fail d => .exit (-1) { s with decoder := d }

theorem chunkExtStep_eq (hsrc : s.src < bufsz) :
    chunkExtStep bufsz s = asStep s (extByte s.decoder (s.buf s.src)) := by
  rw [chunkExtStep, if_neg (Nat.ne_of_lt hsrc), extByte]
  split
  · split
    · split <;> rfl
    · rfl
  · rfl

/-- A byte that is not data takes the loop one step, or two where the chunk size
ends: the byte behind it is looked at again. -/
theorem decodeStep_byte (hsrc : s.src < bufsz) (hwf : s.decoder.WellFormed)
    (hstate : s.decoder.state ≠ .inChunkData) :
    decodeStep bufsz s = asStep s (decodeByte s.decoder (s.buf s.src)) ∨
      ∃ s', decodeStep bufsz s = .goOn s' ∧
        decodeStep bufsz s' = asStep s (decodeByte s.decoder (s.buf s.src)) := by
  have hne : ¬ s.src = bufsz := Nat.ne_of_lt hsrc
  cases hcase : s.decoder.state with
  | inChunkSize =>
      obtain ⟨hcount, hsize⟩ := hwf.fields hcase
      by_cases hhex : decodeHex (s.buf s.src) = -1
      · by_cases hfirst : s.decoder.hexCount = 0
        · left
          simp [decodeStep, decodeByte, hcase, chunkSizeStep, hne, hhex, hfirst, asStep]
        · right
          refine ⟨{ s with decoder := { s.decoder with hexCount := 0, state := .inChunkExt } },
            ?_, ?_⟩
          · simp [decodeStep, hcase, chunkSizeStep, hne, hhex, hfirst]
          · simp only [decodeStep, decodeByte, hcase, hhex, hfirst, if_true, if_false]
            exact chunkExtStep_eq hsrc
      · left
        by_cases hfull : s.decoder.hexCount = maxHexCount
        · simp [decodeStep, decodeByte, hcase, chunkSizeStep, hne, hhex, hfull, asStep]
        · -- the new size has not wrapped around
          have hlt : s.decoder.bytesLeftInChunk * 16 + (decodeHex (s.buf s.src)).toNat <
              sizeValues :=
            Nat.lt_of_lt_of_le (digit_lt hsize (decodeHex_lt _)) (pow_le_sizeValues (by omega))
          simp only [decodeStep, decodeByte, hcase, chunkSizeStep, hne, hhex, hfull, if_false,
            Nat.mod_eq_of_lt hlt, asStep]
          rfl
  | inChunkExt =>
      left
      rw [decodeStep, decodeByte, hcase]
      exact chunkExtStep_eq hsrc
  | inChunkData => exact absurd hcase hstate
  | inChunkCrlf =>
      left
      simp only [decodeStep, decodeByte, hcase, chunkCrlfStep, hne, if_false]
      split
      · rfl
      · split <;> rfl
  | inTrailersLineHead =>
      left
      simp only [decodeStep, decodeByte, hcase, trailersLineHeadStep, hne, if_false]
      split
      · rfl
      · split <;> rfl
  | inTrailersLineMiddle =>
      left
      simp only [decodeStep, decodeByte, hcase, trailersLineMiddleStep, hne, if_false]
      split <;> rfl

/-- Nothing is put out for a byte that is not data. -/
def Silent : Step PhrChunkedDecoder Byte → Prop
  | .next _ out => out = []
  | .stop _ out => out = []
  | .fail _ => True

theorem silent_extByte (d : PhrChunkedDecoder) (c : Byte) : Silent (extByte d c) := by
  unfold extByte
  split
  · split
    · split <;> rfl
    · rfl
  · rfl

theorem silent_decodeByte {d : PhrChunkedDecoder} (hstate : d.state ≠ .inChunkData) (c : Byte) :
    Silent (decodeByte d c) := by
  unfold decodeByte
  cases hcase : d.state with
  | inChunkSize =>
      simp only
      split
      · split
        · trivial
        · exact silent_extByte _ c
      · split
        · trivial
        · rfl
  | inChunkExt => exact silent_extByte d c
  | inChunkData => exact absurd hcase hstate
  | inChunkCrlf =>
      simp only
      split
      · rfl
      · split
        · trivial
        · rfl
  | inTrailersLineHead =>
      simp only
      split
      · rfl
      · split <;> rfl
  | inTrailersLineMiddle =>
      simp only
      split <;> rfl

theorem decodeStep_end (hsrc : s.src = bufsz) (hstate : s.decoder.state ≠ .inChunkData) :
    decodeStep bufsz s = .exit (-2) s := by
  cases hcase : s.decoder.state with
  | inChunkData => exact absurd hcase hstate
  | inChunkSize => simp [decodeStep, hcase, chunkSizeStep, hsrc]
  | inChunkExt => simp [decodeStep, hcase, chunkExtStep, hsrc]
  | inChunkCrlf => simp [decodeStep, hcase, chunkCrlfStep, hsrc]
  | inTrailersLineHead => simp [decodeStep, hcase, trailersLineHeadStep, hsrc]
  | inTrailersLineMiddle => simp [decodeStep, hcase, trailersLineMiddleStep, hsrc]

def loopOn (bufsz fuel : ℕ) : DecodeStep → Option (ℤ × DecodeRun)
  | .goOn s' => decodeLoop bufsz fuel s'
  | .exit ret s' => some (ret, s')
  | .complete s' => some ((bufsz : ℤ) - s'.src, s')

theorem decodeLoop_succ (fuel : ℕ) (s : DecodeRun) :
    decodeLoop bufsz (fuel + 1) s = loopOn bufsz fuel (decodeStep bufsz s) := by
  rw [decodeLoop]
  cases decodeStep bufsz s <;> rfl

theorem loopOn_mono {fuel' : ℕ} (hle : fuel ≤ fuel') {y : DecodeStep}
    (h : loopOn bufsz fuel y = some r) : loopOn bufsz fuel' y = some r := by
  cases y with
  | goOn s' => exact decodeLoop_mono hle h
  | exit ret s' => exact h
  | complete s' => exact h

theorem decodeLoop_byte (hsrc : s.src < bufsz) (hwf : s.decoder.WellFormed)
    (hstate : s.decoder.state ≠ .inChunkData)
    (h : loopOn bufsz fuel (asStep s (decodeByte s.decoder (s.buf s.src))) = some r) :
    decodeLoop bufsz (fuel + 2) s = some r := by
  rcases decodeStep_byte hsrc hwf hstate with hstep | ⟨s', hgo, hstep⟩
  · rw [decodeLoop_succ, hstep]
    exact loopOn_mono (Nat.le_succ fuel) h
  · rw [decodeLoop_goOn hgo, decodeLoop_succ, hstep]
    exact h

/-! ### Data -/

@[simp] theorem DecodeRun.moveData_buf (s : DecodeRun) (n : ℕ) :
    (s.moveData n).buf = move s.buf s.dst s.src n := by
  show (if s.dst ≠ s.src then move s.buf s.dst s.src n else s.buf) = _
  split
  · rfl
  · rename_i hsame
    rw [not_not.mp hsame, move_self]

theorem DecodeRun.window_moveData (s : DecodeRun) (n : ℕ) :
    window (s.moveData n).buf 0 (s.moveData n).dst =
      window s.buf 0 s.dst ++ window s.buf s.src n := by
  show window (s.moveData n).buf 0 (s.dst + n) = _
  rw [moveData_buf, window_add, zero_add, window_move]
  congr 1
  apply window_congr
  intro k hk
  exact move_outside (Or.inl (by omega))

theorem DecodeRun.unread_moveData (hle : s.dst ≤ s.src) {n : ℕ} (hn : s.src + n ≤ bufsz) :
    (s.moveData n).unread bufsz = (s.unread bufsz).drop n := by
  rw [unread, unread, window_drop _ _ (by omega), moveData_buf]
  show window _ ((s.src + n : ℕ) : ℤ) (bufsz - (s.src + n)) = _
  rw [show bufsz - (s.src + n) = bufsz - s.src - n by omega]
  apply window_congr
  intro k hk
  rw [move_outside (Or.inr (by push_cast; omega))]
  congr 1

theorem DecodeRun.frame_moveData (hle : s.dst ≤ s.src) {n : ℕ} (hn : s.src + n ≤ bufsz) {k : ℤ}
    (hk : k < 0 ∨ bufsz ≤ k) : (s.moveData n).buf k = s.buf k := by
  rw [moveData_buf]
  exact move_outside (by omega)

theorem Decoded.of_data {o : Outcome PhrChunkedDecoder Byte Byte} {n : ℕ}
    {d : PhrChunkedDecoder} (hle : s.dst ≤ s.src) (hn : s.src + n ≤ bufsz)
    (h : Decoded bufsz { s.moveData n with decoder := d } o r) :
    Decoded bufsz s { o with out := window s.buf s.src n ++ o.out } r where
  ret := h.ret
  decoder := h.decoder
  dst := by
    rw [h.dst]
    simp [DecodeRun.moveData, Nat.add_assoc]
  src := h.src
  le := h.le
  out := by
    have hout := h.out
    rw [show ({ s.moveData n with decoder := d } : DecodeRun).buf = (s.moveData n).buf from rfl,
      show ({ s.moveData n with decoder := d } : DecodeRun).dst = (s.moveData n).dst from rfl,
      s.window_moveData] at hout
    rw [hout, List.append_assoc]
  rest := h.rest
  frame := fun k hk => (h.frame k hk).trans (DecodeRun.frame_moveData hle hn hk)

theorem decodeLoop_data_short (hsrc : s.src ≤ bufsz) (hle : s.dst ≤ s.src)
    (hstate : s.decoder.state = .inChunkData)
    (hshort : bufsz - s.src < s.decoder.bytesLeftInChunk) (fuel : ℕ) :
    ∃ r, decodeLoop bufsz (fuel + 1) s = some r ∧
      Decoded bufsz s (feed decodeByte s.decoder (s.unread bufsz)) r := by
  obtain ⟨n, hn⟩ : ∃ n, n = bufsz - s.src := ⟨_, rfl⟩
  obtain ⟨d, hd⟩ : ∃ d, d = { s.decoder with
    bytesLeftInChunk := s.decoder.bytesLeftInChunk - n } := ⟨_, rfl⟩
  have hunread : (s.unread bufsz).length = n := by simp [DecodeRun.unread, hn]
  have hstep : decodeStep bufsz s = .exit (-2) { s.moveData n with decoder := d } := by
    simp only [decodeStep, hstate, chunkDataStep, ← hn, hd]
    rw [if_pos (hn ▸ hshort)]
  have hend : Decoded bufsz { s.moveData n with decoder := d } ⟨.more, d, [], []⟩
      (-2, { s.moveData n with decoder := d }) := by
    have hdst : s.dst + n ≤ s.src + n := Nat.add_le_add_right hle n
    have hall : s.src + n = bufsz := by omega
    exact ⟨rfl, rfl, rfl, hall, hdst, by simp, rfl, fun _ _ => rfl⟩
  refine ⟨_, decodeLoop_exit hstep, ?_⟩
  have hdecoded := hend.of_data hle (by omega)
  rw [List.append_nil] at hdecoded
  rw [feed_data_short hstate (by omega), hunread, ← hd, DecodeRun.unread, ← hn]
  exact hdecoded

theorem decodeLoop_data_full {b : ℕ} {d : PhrChunkedDecoder}
    (hle : s.dst ≤ s.src) (hstate : s.decoder.state = .inChunkData)
    (hb : s.decoder.bytesLeftInChunk = b) (hpos : 0 < s.decoder.bytesLeftInChunk)
    (hd : d = { s.decoder with bytesLeftInChunk := 0, state := .inChunkCrlf })
    (hsrc : s.src + b ≤ bufsz)
    (hloop : decodeLoop bufsz fuel { s.moveData b with decoder := d } = some r)
    (hdecoded : Decoded bufsz { s.moveData b with decoder := d }
      (feed decodeByte d (({ s.moveData b with decoder := d } : DecodeRun).unread bufsz)) r) :
    decodeLoop bufsz (fuel + 1) s = some r ∧
      Decoded bufsz s (feed decodeByte s.decoder (s.unread bufsz)) r := by
  have hfull : ¬bufsz - s.src < b := by omega
  have hstep : decodeStep bufsz s = .goOn { s.moveData b with decoder := d } := by
    simp only [decodeStep, hstate, chunkDataStep, hb, hfull, if_false, hd]
  refine ⟨(decodeLoop_goOn hstep).trans hloop, ?_⟩
  have htake : (s.unread bufsz).take b = window s.buf s.src b := window_take _ _ (by omega)
  have hsplit : s.unread bufsz = window s.buf s.src b ++ (s.unread bufsz).drop b := by
    rw [← htake, List.take_append_drop]
  rw [hsplit, feed_data_full hstate hpos (by simp [hb]), ← hd]
  have hrest : ({ s.moveData b with decoder := d } : DecodeRun).unread bufsz =
      (s.unread bufsz).drop b := DecodeRun.unread_moveData hle hsrc
  rw [hrest] at hdecoded
  exact hdecoded.of_data hle hsrc

/-- A byte that is not data: the loop comes to an end if it does behind a byte that
asks for more. -/
theorem decodeLoop_byte_decoded (hlt : s.src < bufsz) (hle : s.dst ≤ s.src)
    (hwf : s.decoder.WellFormed) (hstate : s.decoder.state ≠ .inChunkData)
    (hnext : ∀ d, decodeByte s.decoder (s.buf s.src) = .next d [] →
      ∃ r, decodeLoop bufsz (fuel + 1) { s.advance with decoder := d } = some r ∧
        Decoded bufsz { s.advance with decoder := d }
          (feed decodeByte d (s.advance.unread bufsz)) r) :
    ∃ r, decodeLoop bufsz (fuel + 1 + 2) s = some r ∧
      Decoded bufsz s (feed decodeByte s.decoder (s.unread bufsz)) r := by
  have hsilent := silent_decodeByte hstate (s.buf s.src)
  rw [DecodeRun.unread_cons hlt]
  cases hbyte : decodeByte s.decoder (s.buf s.src) with
  | next d out =>
      rw [hbyte] at hsilent
      obtain rfl : out = [] := hsilent
      obtain ⟨r, hr, hdecoded⟩ := hnext d hbyte
      refine ⟨r, decodeLoop_byte hlt hwf hstate (by rw [hbyte]; exact hr), ?_⟩
      rw [feed_silent hbyte]
      exact ⟨hdecoded.ret, hdecoded.decoder, hdecoded.dst, hdecoded.src, hdecoded.le,
        hdecoded.out, hdecoded.rest, hdecoded.frame⟩
  | stop d out =>
      rw [hbyte] at hsilent
      obtain rfl : out = [] := hsilent
      refine ⟨_, decodeLoop_byte hlt hwf hstate (by rw [hbyte]; rfl), ?_⟩
      rw [feed_stop hbyte]
      have hlength : s.advance.src + (s.advance.unread bufsz).length = bufsz :=
        DecodeRun.length_unread hlt
      refine ⟨?_, rfl, rfl, hlength, Nat.le_succ_of_le hle, (List.append_nil _).symm,
        s.advance.window_unread bufsz, fun _ _ => rfl⟩
      have hret : (bufsz : ℤ) - s.advance.src = (s.advance.unread bufsz).length := by
        omega
      exact hret
  | fail d =>
      refine ⟨_, decodeLoop_byte hlt hwf hstate (by rw [hbyte]; rfl), ?_⟩
      rw [feed_fail hbyte, ← DecodeRun.unread_cons hlt]
      exact ⟨rfl, rfl, rfl, DecodeRun.length_unread hlt.le, hle, by simp,
        s.window_unread bufsz, fun _ _ => rfl⟩

/-- **The loop ends, with the outcome of the decoder on what is left to read.** -/
theorem decodeLoop_decoded {n : ℕ} (hn : bufsz - s.src = n) (hsrc : s.src ≤ bufsz)
    (hle : s.dst ≤ s.src) (hwf : s.decoder.WellFormed) :
    ∃ r, decodeLoop bufsz (2 * n + 1) s = some r ∧
      Decoded bufsz s (feed decodeByte s.decoder (s.unread bufsz)) r := by
  induction n using Nat.strong_induction_on generalizing s with
  | _ n ih =>
      by_cases hstate : s.decoder.state = .inChunkData
      · obtain ⟨hcount, hpos, -⟩ := hwf.fields hstate
        by_cases hshort : n < s.decoder.bytesLeftInChunk
        · exact decodeLoop_data_short hsrc hle hstate (hn ▸ hshort) _
        · obtain ⟨b, hb⟩ : ∃ b, s.decoder.bytesLeftInChunk = b := ⟨_, rfl⟩
          obtain ⟨d, hd⟩ : ∃ d, d = { s.decoder with
            bytesLeftInChunk := 0, state := .inChunkCrlf } := ⟨_, rfl⟩
          have hwf' : d.WellFormed := by
            rw [hd]
            exact ⟨hcount, rfl⟩
          have hsrc' : s.src + b ≤ bufsz := by omega
          have hn' : bufsz - (s.src + b) = n - b := by omega
          obtain ⟨r, hr, hdecoded⟩ := ih (n - b) (by omega)
            (s := { s.moveData b with decoder := d }) hn' hsrc'
            (Nat.add_le_add_right hle b) hwf'
          exact ⟨r, decodeLoop_data_full hle hstate hb hpos hd hsrc'
            (decodeLoop_mono (by omega) hr) hdecoded⟩
      · by_cases hend : s.src = bufsz
        · refine ⟨_, decodeLoop_exit (decodeStep_end hend hstate), ?_⟩
          rw [DecodeRun.unread_nil hend]
          exact ⟨rfl, rfl, rfl, hend, hle, by simp [feed], rfl, fun _ _ => rfl⟩
        · have hlt : s.src < bufsz := by omega
          obtain ⟨n, rfl⟩ : ∃ k, n = k + 1 := ⟨n - 1, by omega⟩
          have hn' : bufsz - (s.src + 1) = n := by omega
          have hkept := decodeByte_wellFormed s.decoder (s.buf s.src) hwf
          refine decodeLoop_byte_decoded hlt hle hwf hstate fun d hbyte => ?_
          rw [hbyte] at hkept
          exact ih n (Nat.lt_succ_self n) (s := { s.advance with decoder := d }) hn' hlt
            (Nat.le_succ_of_le hle) hkept

/-! ## A call -/

/-- What a call leaves behind for an outcome: the decoded data at the front of the
buffer, `*bufsz` their length, what has not been read behind them, and everything
outside the buffer as it was. -/
structure LeavesBehind (buf : Mem Byte) (bufsz : ℕ) (o : Outcome PhrChunkedDecoder Byte Byte)
    (r : DecodeResult) : Prop where
  ret : r.ret = returned o
  decoder : r.decoder = o.state
  bufsz_eq : r.bufsz = o.out.length
  fits : r.bufsz + o.rest.length ≤ bufsz
  out : window r.buf 0 r.bufsz = o.out
  rest : window r.buf r.bufsz o.rest.length = o.rest
  frame : ∀ k : ℤ, k < 0 ∨ bufsz ≤ k → r.buf k = buf k

/-- The last `memmove` brings what has not been read behind the data. -/
theorem Decoded.leavesBehind {buf : Mem Byte} {d : PhrChunkedDecoder}
    {o : Outcome PhrChunkedDecoder Byte Byte} (h : Decoded bufsz ⟨d, buf, 0, 0⟩ o r) :
    LeavesBehind buf bufsz o
      { ret := r.1
        decoder := r.2.decoder
        buf := if r.2.dst ≠ r.2.src then
            move r.2.buf r.2.dst r.2.src ((bufsz : ℤ) - r.2.src)
          else r.2.buf
        bufsz := r.2.dst } := by
  have hle := h.le
  have hsrc := h.src
  have hbuf : (if r.2.dst ≠ r.2.src then
        move r.2.buf r.2.dst r.2.src ((bufsz : ℤ) - r.2.src) else r.2.buf) =
      move r.2.buf r.2.dst r.2.src o.rest.length := by
    have hlength : (bufsz : ℤ) - r.2.src = o.rest.length := by omega
    rw [hlength]
    split
    · rfl
    · rename_i hsame
      rw [not_not.mp hsame, move_self]
  rw [hbuf]
  refine ⟨h.ret, h.decoder, ?_, ?_, ?_, ?_, ?_⟩
  · have hdst := h.dst
    simpa using hdst
  · show r.2.dst + o.rest.length ≤ bufsz
    omega
  · show window (move r.2.buf r.2.dst r.2.src o.rest.length) 0 r.2.dst = o.out
    have hout := h.out
    rw [show (⟨d, buf, 0, 0⟩ : DecodeRun).dst = 0 from rfl, window_zero, List.nil_append] at hout
    rw [← hout]
    apply window_congr
    intro k hk
    exact move_outside (Or.inl (by omega))
  · show window (move r.2.buf r.2.dst r.2.src o.rest.length) r.2.dst o.rest.length = o.rest
    rw [window_move, h.rest]
  · intro k hk
    show move r.2.buf r.2.dst r.2.src o.rest.length k = buf k
    rw [move_outside (by omega)]
    exact h.frame k hk

end Pico

open Pico

theorem phrDecodeChunked_leaves {d : PhrChunkedDecoder} (hwf : d.WellFormed) (buf : Mem Byte)
    (bufsz : ℕ) :
    ∃ r, phrDecodeChunked d buf bufsz = some r ∧
      LeavesBehind buf bufsz (feed decodeByte d (window buf 0 bufsz)) r := by
  obtain ⟨r, hr, hdecoded⟩ := decodeLoop_decoded (s := ⟨d, buf, 0, 0⟩) (n := bufsz) rfl
    (Nat.zero_le _) (le_refl _) hwf
  refine ⟨_, ?_, hdecoded.leavesBehind⟩
  rw [phrDecodeChunked, decodeLoop_mono (Nat.le_succ _) hr]
  rfl

theorem Pico.LeavesBehind.wellFormed {d : PhrChunkedDecoder} (hwf : d.WellFormed) {buf : Mem Byte}
    {bufsz : ℕ} {w : List Byte} {r : DecodeResult}
    (h : LeavesBehind buf bufsz (feed decodeByte d w) r) : r.decoder.WellFormed := by
  rw [h.decoder]
  exact feed_invariant decodeByte_wellFormed hwf

/-- The decoder after a number of calls, each on a buffer and its size. -/
def decoderAfter (d : PhrChunkedDecoder) (calls : List (Mem Byte × ℕ)) :
    Option PhrChunkedDecoder :=
  calls.foldlM (fun d call => (phrDecodeChunked d call.1 call.2).map DecodeResult.decoder) d

theorem wellFormed_decoderAfter {d d' : PhrChunkedDecoder} (hwf : d.WellFormed)
    {calls : List (Mem Byte × ℕ)} (h : decoderAfter d calls = some d') : d'.WellFormed := by
  induction calls generalizing d with
  | nil =>
      cases h
      exact hwf
  | cons call calls ih =>
      obtain ⟨r, hr, hleaves⟩ := phrDecodeChunked_leaves hwf call.1 call.2
      rw [decoderAfter, List.foldlM_cons, hr] at h
      exact ih (hleaves.wellFormed hwf) h

/-- **Decoding in place.** Whatever calls a zero-filled decoder has been through,
the next one returns on every buffer, with the outcome of the decoder that reads
a byte at a time and never wraps around a chunk size; the data are at the front
of the buffer, what has not been read follows them, and nothing outside the
buffer is changed. -/
theorem phrDecodeChunked_inPlace (consumeTrailer : Bool) (calls : List (Mem Byte × ℕ))
    (d : PhrChunkedDecoder) (hd : decoderAfter (zero consumeTrailer) calls = some d)
    (buf : Mem Byte) (bufsz : ℕ) :
    ∃ r, phrDecodeChunked d buf bufsz = some r ∧
      LeavesBehind buf bufsz (feed decodeByte d (window buf 0 bufsz)) r :=
  phrDecodeChunked_leaves (wellFormed_decoderAfter (wellFormed_zero consumeTrailer) hd) buf bufsz

/-- Behind a first call on `2` and LF, a second one on `ab` and CR. -/
theorem phrDecodeChunked_inPlace_ab :
    ∃ r, phrDecodeChunked ⟨2, false, 0, .inChunkData⟩ (store (fun _ => 0) 0 [97, 98, 13]) 3 =
        some r ∧
      LeavesBehind (store (fun _ => 0) 0 [97, 98, 13]) 3
        (feed decodeByte ⟨2, false, 0, .inChunkData⟩
          (window (store (fun _ => 0) 0 [97, 98, 13]) 0 3)) r :=
  phrDecodeChunked_inPlace false [(store (fun _ => 0) 0 [50, 10], 2)] _ (by decide) _ 3

end Zroxy
