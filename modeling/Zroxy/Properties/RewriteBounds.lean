import Zroxy.Parsers.HeaderTable

/-!
# Where a rewriting reads and writes

`zxy_modify_http_headers` compares each name with the one it looks for, without a
look at its length, and moves the tail of the request without a look at the
capacity of the buffer. Here every run of bytes that the loop touches is on
record.

`rewriteContained_iff` says when they all lie in a buffer of a given capacity,
for any table that points into the request, and `nameReadsInside_iff` when the
comparisons stay inside an accepted request, which may have entries without a
name.
-/

namespace Zroxy

open OffsetMemory Runs Pico

variable {size capacity : ℤ} {modify : HttpHeader} {m : Mem Byte} {h : PhrHeader}
  {hs : List PhrHeader} {l : Look}

/-! ## What one turn of the loop touches -/

/-- What `fast_compare` reads behind a header name. Through a NULL name it gets no
further than the first read. -/
def nameReads (m : Mem Byte) (modify : HttpHeader) : Option ℤ → List (ℕ × ℕ)
  | some n => fastCompareReads (fun k => m (n + k)) modify.namePtr modify.name.length
  | none =>
      if modify.name.length = 0 ∨ modify.name.length = wordSize then []
      else [(0, if modify.name.length < wordSize then 1 else wordSize)]

/-- A run of `length` bytes of the buffer. -/
structure Span where
  offset : ℤ
  length : ℤ
deriving DecidableEq

/-- The bytes of the run lie in a buffer of the capacity given. -/
def Span.Inside (capacity : ℤ) (a : Span) : Prop :=
  0 < a.length → 0 ≤ a.offset ∧ a.offset + a.length ≤ capacity

instance (capacity : ℤ) (a : Span) : Decidable (a.Inside capacity) := by
  unfold Span.Inside
  infer_instance

/-- What replacing a value reads and writes in the buffer: the new value, and the
tail before and after its move. -/
def replaceSpans (size : ℤ) (modify : HttpHeader) (h : PhrHeader) : List Span :=
  let moveSize := size - (h.value + h.valueLen)
  let newLen : ℤ := modify.value.length
  if h.valueLen > modify.value.length then
    [⟨h.value, newLen⟩, ⟨h.value + h.valueLen, moveSize⟩, ⟨h.value + newLen, moveSize⟩]
  else if h.valueLen < modify.value.length then
    [⟨h.value + h.valueLen, moveSize⟩, ⟨h.value + newLen, moveSize⟩, ⟨h.value, newLen⟩]
  else [⟨h.value, newLen⟩]

/-- The entry points into the request. -/
structure PointsInto (size : ℤ) (h : PhrHeader) : Prop where
  name : ∀ n, h.name = some n → 0 ≤ n
  value : 0 ≤ h.value
  value_le : h.value + h.valueLen ≤ size

/-- **One replacement** stays in the buffer exactly when the request does. -/
theorem replaceSpans_inside_iff (hinto : PointsInto size h) (hcap : size ≤ capacity) :
    (∀ a ∈ replaceSpans size modify h, a.Inside capacity) ↔
      size + modify.value.length - h.valueLen ≤ capacity := by
  obtain ⟨-, h0, hle⟩ := hinto
  unfold replaceSpans Span.Inside
  simp only
  -- shorter, longer, and of the same length
  split_ifs
  all_goals
    simp only [List.forall_mem_cons, List.not_mem_nil, false_implies, implies_true, and_true]
    omega

theorem nameReads_le_iff {n : ℤ} (h0 : 0 ≤ n) :
    (∀ r ∈ nameReads m modify (some n), 0 ≤ n + (r.1 : ℤ) ∧ n + ((r.1 + r.2 : ℕ) : ℤ) ≤ capacity) ↔
      ReadsWithin (fun k => m (n + k)) modify.namePtr modify.name.length (capacity - n) := by
  rw [← fastCompareReads_le_iff]
  constructor
  · intro h r hr
    obtain ⟨-, hle⟩ := h r hr
    omega
  · intro h r hr
    have hle := h r hr
    omega

/-! ## The capacity of the buffer -/

/-- What the loop does at an entry stays in the buffer. -/
def Look.AccessesInside (size capacity : ℤ) (modify : HttpHeader) (l : Look) : Prop :=
  (∀ n, l.entry.name = some n → ∀ r ∈ nameReads l.buffer modify (some n),
    0 ≤ n + (r.1 : ℤ) ∧ n + ((r.1 + r.2 : ℕ) : ℤ) ≤ capacity) ∧
  (l.selected modify = true → ∀ a ∈ replaceSpans size modify l.entry, a.Inside capacity)

/-- The value of the entry is to be replaced by one that does not fit. -/
def Look.Overflows (size capacity : ℤ) (modify : HttpHeader) (l : Look) : Prop :=
  l.selected modify = true ∧ capacity < size + modify.value.length - l.entry.valueLen

/-- All that the loop touches lies in the buffer, and a value that does not fit
leaves the buffer as it is. -/
def RewriteContained (m : Mem Byte) (size capacity : ℤ) (hs : List PhrHeader)
    (modify : HttpHeader) : Prop :=
  (∀ l ∈ looks size modify m (hs.take maxNumHeaders), l.AccessesInside size capacity modify) ∧
    ∀ s, modifyHttpHeaders m size hs modify = .ok s →
      (∃ l ∈ looks size modify m (hs.take maxNumHeaders), l.Overflows size capacity modify) →
      s.buffer = m

/-- As long as the name agrees the buffer goes on, and if it is the one looked
for, the request with the new value fits. -/
def Look.Fits (size capacity : ℤ) (modify : HttpHeader) (l : Look) : Prop :=
  (∀ n, l.entry.name = some n →
    ReadsWithin (fun k => l.buffer (n + k)) modify.namePtr modify.name.length (capacity - n)) ∧
  (l.selected modify = true → size + modify.value.length - l.entry.valueLen ≤ capacity)

/-- **One turn of the loop.** -/
theorem accessesInside_iff (hinto : PointsInto size l.entry) (hcap : size ≤ capacity) :
    l.AccessesInside size capacity modify ↔ l.Fits size capacity modify := by
  unfold Look.AccessesInside Look.Fits
  rw [replaceSpans_inside_iff hinto hcap]
  refine and_congr_left fun _ => ?_
  exact forall₂_congr fun n hn => nameReads_le_iff (hinto.name n hn)

/-- **The bounds of a rewriting**, exactly. For a table that points into the
request, all accesses lie in the buffer, and what does not fit is left alone, if
and only if at each entry the loop comes to, the names agree no further than the
buffer goes and the new value fits. -/
theorem rewriteContained_iff (hcap : size ≤ capacity) (hinto : ∀ h ∈ hs, PointsInto size h) :
    RewriteContained m size capacity hs modify ↔
      ∀ l ∈ looks size modify m (hs.take maxNumHeaders), l.Fits size capacity modify := by
  have hentry : ∀ l ∈ looks size modify m (hs.take maxNumHeaders), PointsInto size l.entry := by
    intro l hl
    have hmem := looks_prefix.subset (List.mem_map_of_mem (f := Look.entry) hl)
    exact hinto _ (List.mem_of_mem_take hmem)
  constructor
  · rintro ⟨hinside, -⟩ l hl
    exact (accessesInside_iff (hentry l hl) hcap).mp (hinside l hl)
  · intro hfits
    refine ⟨fun l hl => (accessesInside_iff (hentry l hl) hcap).mpr (hfits l hl), ?_⟩
    rintro s - ⟨l, hl, hselected, hover⟩
    exact absurd ((hfits l hl).2 hselected) (by omega)

/-- With 79 bytes to spare. -/
theorem rewriteContained_hostRequest :
    RewriteContained (requestOf hostRequest).buffer 21 100 [⟨some 13, 4, 18, 1⟩] hostHeader ↔
      ∀ l ∈ looks 21 hostHeader (requestOf hostRequest).buffer
          (List.take maxNumHeaders [⟨some 13, 4, 18, 1⟩]), l.Fits 21 100 hostHeader := by
  refine rewriteContained_iff (by decide) ?_
  intro h hh
  obtain rfl := List.mem_singleton.mp hh
  refine ⟨?_, by decide, by decide⟩
  rintro n hn
  cases hn
  decide

/-- In a buffer that the request fills, the tail of `Host:a` is moved past the
end. -/
theorem full_buffer_is_overrun :
    ¬ ∀ (m : Mem Byte) (n : ℕ) (capacity : ℤ) (r : PhrRequest) (modify : HttpHeader),
      phrParseRequest (window m 0 n) maxNumHeaders = .ok r → n ≤ capacity →
      RewriteContained m n capacity r.headers modify := by
  intro hall
  obtain ⟨hinside, -⟩ := hall _ 21 21 _ hostHeader hostRequest_parsed le_rfl
  have hspans := (hinside _ List.mem_cons_self).2 rfl
  have htail := hspans ⟨27, 2⟩ (List.mem_cons_of_mem _ List.mem_cons_self)
  exact absurd htail (by decide)

/-! ## Names -/

/-- Every read behind the name is from a pointer that is not NULL, and inside the
request. -/
def Look.NameReadsInside (size : ℤ) (modify : HttpHeader) (l : Look) : Prop :=
  ∀ r ∈ nameReads l.buffer modify l.entry.name, ∃ n, l.entry.name = some n ∧
    0 ≤ n + (r.1 : ℤ) ∧ n + ((r.1 + r.2 : ℕ) : ℤ) ≤ size

/-- The entry has a name, unless the name looked for is one that `fast_compare`
does not read, and the request goes on as long as the names agree. -/
def Look.NameReadable (size : ℤ) (modify : HttpHeader) (l : Look) : Prop :=
  match l.entry.name with
  | none => modify.name.length = 0 ∨ modify.name.length = wordSize
  | some n =>
      ReadsWithin (fun k => l.buffer (n + k)) modify.namePtr modify.name.length (size - n)

theorem nameReadsInside_look_iff (h0 : ∀ n, l.entry.name = some n → 0 ≤ n) :
    l.NameReadsInside size modify ↔ l.NameReadable size modify := by
  unfold Look.NameReadsInside Look.NameReadable
  cases hname : l.entry.name with
  | none =>
      simp only [nameReads]
      split
      · exact iff_of_true (fun r hr => by cases hr) ‹_›
      · refine iff_of_false (fun hall => ?_) ‹_›
        obtain ⟨n, hn, -⟩ := hall _ (List.mem_singleton_self _)
        cases hn
  | some n =>
      simp only
      rw [← nameReads_le_iff (h0 n hname)]
      simp

/-- **The comparisons of a rewriting**, exactly. For an accepted request, every
read behind a header name is from a pointer that is not NULL and inside the
request, if and only if each entry the loop comes to has a name the request does
not end in, or is not read. -/
theorem nameReadsInside_iff {n : ℕ} {r : PhrRequest} (modify : HttpHeader)
    (hparse : phrParseRequest (window m 0 n) maxNumHeaders = .ok r) :
    (∀ l ∈ looks n modify m r.headers, l.NameReadsInside n modify) ↔
      ∀ l ∈ looks n modify m r.headers, l.NameReadable n modify := by
  obtain ⟨hfrom, -⟩ := phrParseRequest_entries hparse
  refine forall₂_congr fun l hl => nameReadsInside_look_iff fun name hname => ?_
  have hmem := looks_prefix.subset (List.mem_map_of_mem (f := Look.entry) hl)
  obtain ⟨lo, eol, hlo, hat⟩ := hfrom.mem hmem
  exact (hat.name name hname).1

/-- A name of four bytes always ends inside an accepted request, so for `Host` it
is the entries without a name that matter. -/
theorem host_nameReadable_iff {lo eol : ℤ} {w : Mem Byte}
    (hat : EntryAt w size lo l.entry eol) :
    l.NameReadable size hostHeader ↔ l.entry.name ≠ none := by
  unfold Look.NameReadable
  cases hname : l.entry.name with
  | none =>
      refine iff_of_false ?_ (by simp)
      show ¬ (hostHeader.name.length = 0 ∨ hostHeader.name.length = wordSize)
      decide
  | some n =>
      refine iff_of_true ?_ (by simp)
      have hroom := (hat.name n hname).2
      unfold ReadsWithin
      simp only
      rw [if_pos (by decide)]
      intro k hk _
      change k < 4 at hk
      omega

theorem nameReadsInside_hostRequest :
    (∀ l ∈ looks (21 : ℕ) hostHeader (requestOf hostRequest).buffer [⟨some 13, 4, 18, 1⟩],
        l.NameReadsInside (21 : ℕ) hostHeader) ↔
      ∀ l ∈ looks (21 : ℕ) hostHeader (requestOf hostRequest).buffer [⟨some 13, 4, 18, 1⟩],
        l.NameReadable (21 : ℕ) hostHeader :=
  nameReadsInside_iff hostHeader hostRequest_parsed

/-- `A:b`, continued in the next line. -/
def foldedRequest : List Byte :=
  [71, 32, 47, 32, 72, 84, 84, 80, 47, 49, 46, 48, 10, 65, 58, 98, 10, 32, 99, 10, 10]

/-- The continuation line has no name, and its name is read. -/
theorem folded_name_is_read :
    ¬ ∀ (m : Mem Byte) (n : ℕ) (r : PhrRequest) (modify : HttpHeader),
      phrParseRequest (window m 0 n) maxNumHeaders = .ok r →
      ∀ l ∈ looks n modify m r.headers, l.NameReadsInside n modify := by
  intro hall
  have hparse : phrParseRequest (window (requestOf foldedRequest).buffer 0 21) maxNumHeaders =
      .ok ⟨21, 0, 1, 2, 1, 0, [⟨some 13, 1, 15, 1⟩, ⟨none, 0, 17, 2⟩]⟩ := rfl
  have hlook : (⟨(requestOf foldedRequest).buffer, ⟨none, 0, 17, 2⟩⟩ : Look) ∈
      looks (21 : ℕ) hostHeader (requestOf foldedRequest).buffer
        [⟨some 13, 1, 15, 1⟩, ⟨none, 0, 17, 2⟩] :=
    List.mem_cons_of_mem _ List.mem_cons_self
  obtain ⟨n, hn, -⟩ := hall _ 21 _ hostHeader hparse _ hlook (0, 1) List.mem_cons_self
  cases hn

end Zroxy
