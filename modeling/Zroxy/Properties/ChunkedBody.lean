import Zroxy.Parsers.ChunkedText
import Zroxy.Properties.ChunkedInPlace

/-!
# Decoding a body

A caller hands over the body as it arrives, in as many calls as it likes, until
the decoder wants no more. How the body is cut does not matter, and the calls
come to an end exactly if they bring the text of a chunked body: the data
delivered are its payload, and what is behind it is left.
-/

namespace Zroxy

open OffsetMemory Transducers Pico PhrChunkedDecoder

/-! ## Calls -/

/-- What a caller has in the end. `ret` is -2 or -1 if the last call returned that.
Otherwise it is the number of bytes left of all the calls together, and not what
the last call returned: bytes that were still to be brought count as well. -/
structure Received where
  ret : ℤ
  decoder : PhrChunkedDecoder
  data : List Byte
  left : List Byte

def contents (calls : List (Mem Byte × ℕ)) : List Byte :=
  calls.flatMap fun call => window call.1 0 call.2

/-- One call after the other, as long as `-2` is returned. -/
def decodeCalls : PhrChunkedDecoder → List (Mem Byte × ℕ) → Option Received
  | d, [] => some ⟨-2, d, [], []⟩
  | d, call :: calls => (phrDecodeChunked d call.1 call.2).bind fun r =>
      let data := window r.buf 0 r.bufsz
      if r.ret = -2 then
        (decodeCalls r.decoder calls).map fun c => { c with data := data ++ c.data }
      else if r.ret = -1 then some ⟨-1, r.decoder, data, []⟩
      else
        let left := window r.buf r.bufsz r.ret.toNat ++ contents calls
        some ⟨left.length, r.decoder, data, left⟩

/-- What a caller has for an outcome. -/
def received (o : Outcome PhrChunkedDecoder Byte Byte) : Received where
  ret := returned o
  decoder := o.state
  data := o.out
  left := if o.verdict = .done then o.rest else []

/-- **The calls together** feed the decoder what they bring. -/
theorem decodeCalls_eq {d : PhrChunkedDecoder} (hwf : d.WellFormed)
    (calls : List (Mem Byte × ℕ)) :
    decodeCalls d calls = some (received (feed decodeByte d (contents calls))) := by
  induction calls generalizing d with
  | nil => rfl
  | cons call calls ih =>
      obtain ⟨r, hr, hleaves⟩ := phrDecodeChunked_leaves hwf call.1 call.2
      have hcontents : contents (call :: calls) = window call.1 0 call.2 ++ contents calls := rfl
      obtain ⟨o, ho⟩ : ∃ o, o = feed decodeByte d (window call.1 0 call.2) := ⟨_, rfl⟩
      have hrest := ih (hleaves.wellFormed hwf)
      rw [hleaves.decoder, ← ho] at hrest
      rw [decodeCalls, hr, hcontents, feed_append, ← ho]
      rw [← ho] at hleaves
      simp only [Option.bind_some, hleaves.ret, hleaves.out, hleaves.decoder]
      cases hverdict : o.verdict with
      | more =>
          have hret : returned o = -2 := by rw [returned, hverdict]
          rw [if_pos hret, hrest, Outcome.feed_of_more hverdict]
          rfl
      | failed =>
          have hret : returned o = -1 := by rw [returned, hverdict]
          rw [hret, if_neg (by decide), if_pos rfl]
          simp [Outcome.feed, hverdict, received, returned]
      | done =>
          have hret : returned o = o.rest.length := by rw [returned, hverdict]
          rw [hret, if_neg (by omega), if_neg (by omega)]
          simp [Outcome.feed, hverdict, received, returned, hleaves.rest]

/-- **How a body is cut does not matter.** Two sequences of calls that bring the
same bytes to a zero-filled decoder leave the caller with the same data, the
same bytes left over, the same decoder, and the same verdict: that there is more
to come, that the body is none, or that it is done. -/
theorem decodeCalls_segmentation (consumeTrailer : Bool) (calls calls' : List (Mem Byte × ℕ))
    (h : contents calls = contents calls') :
    ∃ c, decodeCalls (zero consumeTrailer) calls = some c ∧
      decodeCalls (zero consumeTrailer) calls' = some c := by
  refine ⟨_, decodeCalls_eq (wellFormed_zero consumeTrailer) calls, ?_⟩
  rw [decodeCalls_eq (wellFormed_zero consumeTrailer), h]

/-- The chunk size and its line end in two calls or in one. -/
theorem decodeCalls_segmentation_two :
    ∃ c, decodeCalls (zero true) [(store (fun _ => 0) 0 [50], 1), (store (fun _ => 0) 0 [10], 1)] =
        some c ∧
      decodeCalls (zero true) [(store (fun _ => 0) 0 [50, 10], 2)] = some c :=
  decodeCalls_segmentation true _ _ (by decide)

end Zroxy
