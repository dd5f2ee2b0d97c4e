import Zroxy.Connections.ConnTypes
import Zroxy.Parsers.StringComp
import Zroxy.Parsers.PicoHttpParser

/-!
# Header rewriting (`parsers/http/http_parser.h`)

`zxy_parse_http_request` and `zxy_modify_http_headers`, on the memory the
request lies in. The rewriting is done in place: the header table is a list of
offsets into that memory, and the moves may leave the request.

The difference that the loop computes is always 0, so no entry of the table ever
moves, and the loop is one over the entries as the parser left them
(`modifyEntries`, `tableAfter`).
-/

namespace Zroxy

open OffsetMemory Runs

/-- `MAX_NUM_HEADERS`. -/
abbrev maxNumHeaders : ℕ := 20

/-- `struct http_header`: a name and a value to put there. -/
structure HttpHeader where
  name : List Byte
  value : List Byte
deriving DecidableEq

/-- The name as the C string it is: NULs follow it. -/
def HttpHeader.namePtr (h : HttpHeader) (k : ℕ) : Byte := h.name.getD k 0

/-- `zxy_parse_http_request` on the `size` bytes at the start of the memory. -/
def parseHttpRequest (httpBuffer : Mem Byte) (size : ℤ) : Except ℤ PhrRequest :=
  phrParseRequest (window httpBuffer 0 size.toNat) maxNumHeaders

/-- The two inner loops' effect: every later entry moves its name by
`diffrence`, and entry `i` its value, once for each of them. -/
def shiftHeaders (headers : List PhrHeader) (i cnt : ℕ) (diffrence : ℤ) : List PhrHeader :=
  headers.mapIdx fun j h =>
    if j = i then { h with value := h.value + diffrence * (cnt - (i + 1) : ℕ) }
    else if i < j ∧ j < cnt then { h with name := h.name.map (· + diffrence) }
    else h

/-- What the loop of `zxy_modify_http_headers` works on. -/
structure ModifyState where
  buffer : Mem Byte
  headers : List PhrHeader
  diffrence : ℤ

/-- `fast_compare(headers[i].name, modify_headers->name, name_len)`. A NULL name
is read through, unless the length is one for which `fast_compare` reads nothing. -/
def compareName (buffer : Mem Byte) (modify : HttpHeader) : Option ℤ → Except Fault ℤ
  | some name =>
      .ok (fastCompare (fun k => buffer (name + k)) modify.namePtr modify.name.length)
  | none =>
      if modify.name.length = 0 ∨ modify.name.length = wordSize then .ok 0
      else .error .nullName

/-- Replacing the value of entry `h`: when the new value is shorter it is copied
first and the tail moved down behind it; when it is longer the tail is moved up
first. The tail is measured against `size`, which never changes. -/
def replaceValue (size : ℤ) (modify : HttpHeader) (buffer : Mem Byte) (h : PhrHeader) :
    Mem Byte :=
  let distance := h.value + h.valueLen
  let moveSize := size - distance
  let newLen : ℤ := modify.value.length
  if h.valueLen > modify.value.length then
    move (store buffer h.value modify.value) (h.value + newLen) (h.value + h.valueLen) moveSize
  else if h.valueLen < modify.value.length then
    store (move buffer (h.value + newLen) (h.value + h.valueLen) moveSize) h.value modify.value
  else store buffer h.value modify.value

/-- The loop of `zxy_modify_http_headers` from entry `i` on, `n` entries left of
`cnt`. An entry of the same length ends it with the result 0. -/
def modifyHeadersFrom (size : ℤ) (modify : HttpHeader) (cnt : ℕ) :
    ℕ → ℕ → ModifyState → Except Fault ModifyState
  | 0, _, s => .ok s
  | n + 1, i, s =>
      match s.headers[i]? with
      | none => .ok s
      | some h => (compareName s.buffer modify h.name).bind fun order =>
          if order ≠ 0 then modifyHeadersFrom size modify cnt n (i + 1) s
          else
            let buffer := replaceValue size modify s.buffer h
            if h.valueLen = modify.value.length then
              .ok { s with buffer := buffer, diffrence := 0 }
            else
              let headers := s.headers.set i { h with valueLen := modify.value.length }
              -- `headers[i].value_len` has just been overwritten
              let diffrence : ℤ := (modify.value.length : ℤ) - modify.value.length
              modifyHeadersFrom size modify cnt n (i + 1)
                { buffer := buffer
                  headers := shiftHeaders headers i cnt diffrence
                  diffrence := diffrence }

/-- `zxy_modify_http_headers`: the memory, the table and the difference
returned. -/
def modifyHttpHeaders (buffer : Mem Byte) (size : ℤ) (headers : List PhrHeader)
    (modify : HttpHeader) : Except Fault ModifyState :=
  let cnt := if headers.length > maxNumHeaders then maxNumHeaders else headers.length
  modifyHeadersFrom size modify cnt cnt 0 ⟨buffer, headers, 0⟩

/-- The header every request to an SSL backend is given: `Host: quera.org`. -/
def hostHeader : HttpHeader where
  name := [72, 111, 115, 116]
  value := [113, 117, 101, 114, 97, 46, 111, 114, 103]

/-- The parse and rewrite at the start of `zxy_on_backend_ssl_write_event`: the
request as it is queued afterwards. A request the parser does not accept, or
does not find complete, stays as it is. -/
def rewriteHost (req : WriteIoReq) : Except Fault WriteIoReq :=
  match parseHttpRequest req.buffer req.sendNbytes with
  | .error _ => .ok req
  | .ok parsed =>
      if parsed.consumed > 0 then
        (modifyHttpHeaders req.buffer req.sendNbytes parsed.headers hostHeader).bind fun s =>
          .ok { req with buffer := s.buffer, sendNbytes := req.sendNbytes + s.diffrence }
      else .ok req

/-! ## The loop over the entries -/

/-- **Replacing a value** is a splice, in either order of copying and moving. -/
theorem replaceValue_eq_splice (size : ℤ) (modify : HttpHeader) (m : Mem Byte) (h : PhrHeader) :
    replaceValue size modify m h = splice m h.value h.valueLen modify.value size := by
  unfold replaceValue
  simp only
  split
  · rw [splice_eq_move_store (by omega)]
  · split
    · rfl
    · rw [splice_same_length (by omega)]

@[simp] theorem shiftHeaders_zero (headers : List PhrHeader) (i cnt : ℕ) :
    shiftHeaders headers i cnt 0 = headers := by
  apply List.ext_getElem (by simp [shiftHeaders])
  intro j hj hj'
  simp only [shiftHeaders, List.getElem_mapIdx]
  split
  · simp
  · split
    · cases hname : headers[j].name <;> simp [← hname]
    · rfl

/-- The loop of `zxy_modify_http_headers` on the entries still to come. -/
def modifyEntries (size : ℤ) (modify : HttpHeader) :
    Mem Byte → List PhrHeader → Except Fault (Mem Byte)
  | m, [] => .ok m
  | m, h :: hs => (compareName m modify h.name).bind fun order =>
      if order ≠ 0 then modifyEntries size modify m hs
      else if h.valueLen = modify.value.length then .ok (replaceValue size modify m h)
      else modifyEntries size modify (replaceValue size modify m h) hs

/-- The entries as the loop leaves them. -/
def tableAfter (size : ℤ) (modify : HttpHeader) : Mem Byte → List PhrHeader → List PhrHeader
  | _, [] => []
  | m, h :: hs =>
      match compareName m modify h.name with
      | .error _ => h :: hs
      | .ok order =>
          if order ≠ 0 then h :: tableAfter size modify m hs
          else if h.valueLen = modify.value.length then h :: hs
          else { h with valueLen := modify.value.length } ::
            tableAfter size modify (replaceValue size modify m h) hs

variable {size : ℤ} {modify : HttpHeader} {m : Mem Byte} {hs : List PhrHeader}

/-- **The loop** is the one over the entries still to come: its memory is that of
`modifyEntries`, its table `tableAfter`, and its difference 0. -/
theorem modifyHeadersFrom_eq {cnt : ℕ} : ∀ {n i : ℕ} {s : ModifyState}, s.diffrence = 0 →
    modifyHeadersFrom size modify cnt n i s =
      (modifyEntries size modify s.buffer ((s.headers.drop i).take n)).map fun m' =>
        ⟨m', s.headers.take i ++ tableAfter size modify s.buffer ((s.headers.drop i).take n) ++
          s.headers.drop (i + n), 0⟩
  | 0, i, s, h0 => by
      simp [modifyHeadersFrom, modifyEntries, tableAfter, Except.map, ← h0]
  | n + 1, i, s, h0 => by
      rcases Nat.lt_or_ge i s.headers.length with hi | hi
      · have htake : s.headers.take (i + 1) = s.headers.take i ++ [s.headers[i]] := by
          rw [List.take_succ_eq_append_getElem hi]
        have hnext : i + (n + 1) = i + 1 + n := by omega
        rw [List.drop_eq_getElem_cons hi, List.take_succ_cons, modifyHeadersFrom, modifyEntries,
          tableAfter, List.getElem?_eq_getElem hi, hnext]
        simp only
        cases compareName s.buffer modify s.headers[i].name with
        | error f => rfl
        | ok order =>
            simp only [Except.bind]
            split
            · rw [modifyHeadersFrom_eq h0, htake]
              simp only [List.append_assoc, List.singleton_append]
            · split
              · have hall : s.headers.take i ++
                    (s.headers[i] :: (s.headers.drop (i + 1)).take n) ++
                      s.headers.drop (i + 1 + n) = s.headers := by
                  have hbehind := List.take_append_drop n (s.headers.drop (i + 1))
                  rw [List.drop_drop] at hbehind
                  rw [List.append_assoc, List.cons_append, hbehind,
                    ← List.drop_eq_getElem_cons hi, List.take_append_drop]
                simp only [Except.map, hall]
              · rw [sub_self, shiftHeaders_zero, modifyHeadersFrom_eq rfl,
                  List.drop_set_of_lt (by omega), List.drop_set_of_lt (by omega),
                  List.take_succ_eq_append_getElem (by simpa using hi), List.getElem_set_self,
                  List.take_set_of_le (le_refl i)]
                simp only [List.append_assoc, List.nil_append, List.cons_append]
      · rw [List.drop_of_length_le hi, modifyHeadersFrom, List.getElem?_eq_none hi,
          List.take_of_length_le hi, List.drop_of_length_le (by omega)]
        simp [modifyEntries, tableAfter, Except.map, ← h0]

/-- **`zxy_modify_http_headers`** looks at no more than `MAX_NUM_HEADERS` entries. -/
theorem modifyHttpHeaders_eq (m : Mem Byte) (size : ℤ) (hs : List PhrHeader)
    (modify : HttpHeader) :
    modifyHttpHeaders m size hs modify =
      (modifyEntries size modify m (hs.take maxNumHeaders)).map fun m' =>
        ⟨m', tableAfter size modify m (hs.take maxNumHeaders) ++ hs.drop maxNumHeaders, 0⟩ := by
  unfold modifyHttpHeaders
  simp only
  rw [modifyHeadersFrom_eq rfl]
  simp only [List.drop_zero, List.take_zero, List.nil_append, Nat.zero_add]
  split
  · rfl
  · rename_i hcount
    rw [List.take_of_length_le (le_refl _), List.drop_of_length_le (le_refl _),
      List.take_of_length_le (by omega), List.drop_of_length_le (by omega)]

theorem modifyHttpHeaders_ok {s : ModifyState}
    (hok : modifyHttpHeaders m size hs modify = .ok s) :
    modifyEntries size modify m (hs.take maxNumHeaders) = .ok s.buffer ∧
      s.headers = tableAfter size modify m (hs.take maxNumHeaders) ++ hs.drop maxNumHeaders ∧
      s.diffrence = 0 := by
  rw [modifyHttpHeaders_eq] at hok
  cases hloop : modifyEntries size modify m (hs.take maxNumHeaders) with
  | error f =>
      rw [hloop] at hok
      cases hok
  | ok m' =>
      rw [hloop] at hok
      cases hok
      exact ⟨rfl, rfl, rfl⟩

/-- **The returned difference is always 0**: it is computed from a length that
has just been overwritten. -/
theorem modifyHttpHeaders_diffrence {s : ModifyState}
    (h : modifyHttpHeaders m size hs modify = .ok s) : s.diffrence = 0 :=
  (modifyHttpHeaders_ok h).2.2

theorem rewriteHost_sendNbytes {req req' : WriteIoReq} (h : rewriteHost req = .ok req') :
    req'.sendNbytes = req.sendNbytes := by
  unfold rewriteHost at h
  split at h
  · cases h
    rfl
  · split at h
    · obtain ⟨s, hs, hreq⟩ := bind_ok h
      cases hreq
      simp [modifyHttpHeaders_diffrence hs]
    · cases h
      rfl

end Zroxy
