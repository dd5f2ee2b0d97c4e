import Mathlib.Algebra.Order.BigOperators.Group.List
import Mathlib.Data.List.Forall2
import Mathlib.Tactic.IntervalCases
import Zroxy.Properties.RewriteBytes

/-!
# What a rewriting reports

`zxy_modify_http_headers` returns a difference, which its caller adds to the size
of the request, and leaves a header table. Both go by a length that has just been
overwritten: the difference is always 0, and no entry behind a replaced value
ever moves.

So the difference is right when neither the rewritten request nor the values the
loop replaces gain anything in length (`lengthAccounted_iff`), and the table when
the value replaced has the new length or nothing lies behind it
(`tableAligned_unmoved`).
-/

namespace Zroxy

open OffsetMemory Runs Pico

variable {size lo lo' : ℤ} {modify : HttpHeader} {m w : Mem Byte} {h : PhrHeader}
  {hs inOrder : List PhrHeader} {s : ModifyState}

/-! ## The difference -/

def lengthChange (modify : HttpHeader) (rs : List PhrHeader) : ℤ :=
  (rs.map fun h => (modify.value.length : ℤ) - h.valueLen).sum

/-- The difference is what the replaced values gain, and the size and it make up
the length of the rewritten request. `inOrder` is the table in the order of the
values. -/
def LengthAccounted (m : Mem Byte) (size : ℤ) (modify : HttpHeader) (hs inOrder : List PhrHeader)
    (diffrence : ℤ) : Prop :=
  diffrence = lengthChange modify (replaced size modify m (hs.take maxNumHeaders)) ∧
    size + diffrence = (rewriteValues m size modify 0 inOrder).length

/-- The values lie in the request from `lo` on, one behind the other. -/
def ValuesFrom (size : ℤ) : ℤ → List PhrHeader → Prop
  | lo, [] => lo ≤ size
  | lo, h :: hs => lo ≤ h.value ∧ ValuesFrom size (h.value + h.valueLen) hs

/-- The values have together the length of as many new ones. -/
def AverageLength (modify : HttpHeader) (rs : List PhrHeader) : Prop :=
  (rs.map PhrHeader.valueLen).sum = rs.length * modify.value.length

/-- The values of the entries that compare equal when their turn comes, in the
memory with the ones before them replaced, gain nothing with what has been
`gained` so far. A value of the new length is the last. -/
def GainsNothing (size : ℤ) (modify : HttpHeader) : ℤ → Mem Byte → List PhrHeader → Prop
  | gained, _, [] => gained = 0
  | gained, m, h :: hs =>
      if Look.selected modify ⟨m, h⟩ then
        if h.valueLen = modify.value.length then gained = 0
        else GainsNothing size modify (gained + (modify.value.length - h.valueLen))
          (splice m h.value h.valueLen modify.value size) hs
      else GainsNothing size modify gained m hs

@[simp] theorem lengthChange_nil (modify : HttpHeader) : lengthChange modify [] = 0 := rfl

@[simp] theorem lengthChange_cons (modify : HttpHeader) (h : PhrHeader) (rs : List PhrHeader) :
    lengthChange modify (h :: rs) =
      modify.value.length - h.valueLen + lengthChange modify rs := by
  simp [lengthChange]

theorem lengthChange_eq (modify : HttpHeader) (rs : List PhrHeader) :
    lengthChange modify rs =
      ((rs.length * modify.value.length : ℕ) : ℤ) - ((rs.map PhrHeader.valueLen).sum : ℕ) := by
  induction rs with
  | nil => simp
  | cons h rs ih =>
      rw [lengthChange_cons, ih, List.map_cons, List.sum_cons, List.length_cons]
      push_cast
      ring

theorem lengthChange_perm {rs rs' : List PhrHeader} (hperm : rs.Perm rs') :
    lengthChange modify rs = lengthChange modify rs' :=
  (hperm.map _).sum_eq

theorem lengthChange_eq_zero_iff {rs : List PhrHeader} :
    lengthChange modify rs = 0 ↔ AverageLength modify rs := by
  unfold AverageLength
  rw [lengthChange_eq]
  omega

theorem ValuesFrom.mono (hplaced : ValuesFrom size lo' hs) (hlo : lo ≤ lo') :
    ValuesFrom size lo hs := by
  cases hs with
  | nil => exact hlo.trans hplaced
  | cons h hs => exact ⟨hlo.trans hplaced.1, hplaced.2⟩

theorem ValuesFrom.le_size (hplaced : ValuesFrom size lo hs) : lo ≤ size := by
  induction hs generalizing lo with
  | nil => exact hplaced
  | cons h hs ih =>
      have hrest := ih hplaced.2
      have hlo := hplaced.1
      omega

theorem EntriesFrom.valuesFrom (hfrom : EntriesFrom w size lo' hs) (hlo : lo ≤ lo')
    (hsize : lo ≤ size) : ValuesFrom size lo hs := by
  induction hs generalizing lo lo' with
  | nil => exact hsize
  | cons h hs ih =>
      obtain ⟨eol, hat, hrest⟩ := hfrom
      have hlo' := hat.lo_le
      have hle := hat.value_le
      have heol := hat.eol_lt
      exact ⟨by omega, ih hrest (by omega) (by omega)⟩

/-- **The length of a rewritten request**: it gains what the values of the
entries with the name gain. -/
theorem rewriteValues_length (hplaced : ValuesFrom size lo hs) :
    ((rewriteValues m size modify lo hs).length : ℤ) =
      size - lo + lengthChange modify (hs.filter (Carries m modify)) := by
  induction hs generalizing lo with
  | nil =>
      have hlo : lo ≤ size := hplaced
      rw [rewriteValues, window_length, List.filter_nil, lengthChange_nil]
      omega
  | cons h hs ih =>
      obtain ⟨hlo, hrest⟩ := hplaced
      by_cases hc : Carries m modify h
      · have hbehind := ih hrest
        rw [rewriteValues_carries hc, List.filter_cons_of_pos (by simpa using hc),
          lengthChange_cons, List.length_append, List.length_append, window_length]
        omega
      · rw [rewriteValues, if_neg hc, List.filter_cons_of_neg (by simpa using hc)]
        exact ih (hrest.mono (by omega))

/-- **What the loop gains**, turn after turn. -/
theorem gainsNothing_iff {gained : ℤ} {m' : Mem Byte}
    (hok : modifyEntries size modify m hs = .ok m') :
    GainsNothing size modify gained m hs ↔
      gained + lengthChange modify (replaced size modify m hs) = 0 := by
  induction hs generalizing gained m with
  | nil =>
      rw [GainsNothing, show replaced size modify m [] = [] from rfl, lengthChange_nil, add_zero]
  | cons h hs ih =>
      obtain ⟨order, horder, hok⟩ := bind_ok hok
      rw [GainsNothing]
      split at hok
      · have hnot : ¬ Look.selected modify ⟨m, h⟩ = true := by
          rw [Look.selected_iff, horder]
          rintro ⟨⟩
          contradiction
        rw [if_neg hnot, replaced_skip horder ‹_›]
        exact ih hok
      · obtain rfl : order = 0 := by omega
        rw [if_pos (Look.selected_iff.mpr horder)]
        split at hok
        · rename_i hlen
          rw [if_pos hlen, replaced_last horder hlen, lengthChange_cons, lengthChange_nil, hlen]
          omega
        · rename_i hlen
          rw [if_neg hlen, replaced_next horder hlen, lengthChange_cons, ← replaceValue_eq_splice,
            ih hok]
          omega

def denoted (m : Mem Byte) (e : PhrHeader) : Option (List Byte) × List Byte :=
  (e.name.map fun n => window m n e.nameLen, window m e.value e.valueLen)

/-- After the value of `h` has been replaced, every entry denotes its own name
and value, and `h` the new value. -/
def TableAligned (modify : HttpHeader) (m : Mem Byte) (hs : List PhrHeader) (h : PhrHeader)
    (s : ModifyState) : Prop :=
  List.Forall₂ (fun e e' => denoted s.buffer e' =
    ((denoted m e).1, if e = h then modify.value else (denoted m e).2)) hs s.headers

/-- Offset `k` belongs to the name or to the value of the entry. -/
def Covers (e : PhrHeader) (k : ℤ) : Prop :=
  (∃ n, e.name = some n ∧ n ≤ k ∧ k < n + e.nameLen) ∨ (e.value ≤ k ∧ k < e.value + e.valueLen)

/-- The value replaced has the new length, or nothing lies behind it. -/
def NothingToMove (modify : HttpHeader) (hs : List PhrHeader) (h : PhrHeader) : Prop :=
  h.valueLen = modify.value.length ∨ ∀ e ∈ hs, ¬ Behind h e

/-- The byte at `k` is found nowhere else behind the value of `h`, nor in the new
value, and a shorter one moves a byte of the request to its place. -/
def Unmatched (modify : HttpHeader) (m : Mem Byte) (size : ℤ) (h : PhrHeader) (k : ℤ) : Prop :=
  m k ∉ modify.value ∧ (∀ j, h.value + h.valueLen ≤ j → j < size → m j = m k → j = k) ∧
    k + h.valueLen < size + modify.value.length

theorem Covers.lt {e : PhrHeader} {k : ℤ} (hk : Covers e k) (hbehind : Behind h e) :
    h.value + h.valueLen < k := by
  obtain ⟨hvalue, hname⟩ := hbehind
  rcases hk with ⟨n, hn, hle, -⟩ | ⟨hle, -⟩
  · exact (hname n hn).trans_le hle
  · exact hvalue.trans_le hle

theorem NothingToMove.cells (hnothing : NothingToMove modify hs h) {e : PhrHeader}
    (he : e ∈ hs) (hbehind : Behind h e) {k : ℤ} (hk : Covers e k) :
    splice m h.value h.valueLen modify.value size k = m k := by
  rcases hnothing with hlen | hnone
  · have hlt := hk.lt hbehind
    rw [splice_same_length hlen.symm]
    exact store_above (by omega)
  · exact absurd hbehind (hnone e he)

/-- A byte that is found nowhere else is missed as soon as it moves. -/
theorem Unmatched.same_length {k : ℤ} (hun : Unmatched modify m size h k)
    (hk : h.value + h.valueLen < k)
    (hcell : splice m h.value h.valueLen modify.value size k = m k) :
    h.valueLen = modify.value.length := by
  obtain ⟨hvalue, honly, hin⟩ := hun
  rcases lt_or_ge k (h.value + modify.value.length) with hlt | hge
  · obtain ⟨j, hj⟩ := Int.eq_ofNat_of_zero_le (show 0 ≤ k - h.value by omega)
    obtain rfl : k = h.value + j := by omega
    have hjlen : j < modify.value.length := by omega
    rw [splice_inside j hjlen] at hcell
    exact absurd (hcell ▸ List.getElem_mem hjlen) hvalue
  · rw [splice_behind hge (by omega)] at hcell
    have hsame := honly _ (by omega) (by omega) hcell
    omega

theorem denoted_eq_iff {m m' : Mem Byte} {e : PhrHeader} :
    denoted m' e = denoted m e ↔ ∀ k, Covers e k → m' k = m k := by
  unfold denoted
  rw [Prod.mk.injEq, window_eq_iff]
  cases hname : e.name with
  | none =>
      constructor
      · rintro ⟨-, hvalue⟩ k (⟨n, hn, -⟩ | ⟨hk, hk'⟩)
        · rw [hname] at hn
          cases hn
        · exact hvalue k hk hk'
      · intro hall
        exact ⟨rfl, fun k hk hk' => hall k (Or.inr ⟨hk, hk'⟩)⟩
  | some n =>
      rw [Option.map_some, Option.map_some, Option.some.injEq, window_eq_iff]
      constructor
      · rintro ⟨hwindow, hvalue⟩ k (⟨n', hn, hk, hk'⟩ | ⟨hk, hk'⟩)
        · rw [hname] at hn
          cases hn
          exact hwindow k hk hk'
        · exact hvalue k hk hk'
      · intro hall
        exact ⟨fun k hk hk' => hall k (Or.inl ⟨n, hname, hk, hk'⟩),
          fun k hk hk' => hall k (Or.inr ⟨hk, hk'⟩)⟩

theorem tableAfter_nil (hnone : replaced size modify m hs = []) :
    tableAfter size modify m hs = hs := by
  induction hs with
  | nil => rfl
  | cons hd hs ih =>
      rw [tableAfter]
      cases hcompare : compareName m modify hd.name with
      | error f => rfl
      | ok order =>
          simp only
          split
          · rw [replaced_skip hcompare ‹_›] at hnone
            rw [ih hnone]
          · obtain rfl : order = 0 := by omega
            split
            · rfl
            · rw [replaced_next hcompare ‹_›] at hnone
              cases hnone

def relabel (modify : HttpHeader) (h e : PhrHeader) : PhrHeader :=
  if e = h then { e with valueLen := modify.value.length } else e

/-- **The table after one replacement**: no pointer has moved, and the length of
the value replaced is the new one. -/
theorem tableAfter_singleton {lo : ℤ} {w : Mem Byte} (hfrom : EntriesFrom w size lo hs)
    (hone : replaced size modify m hs = [h]) :
    tableAfter size modify m hs = hs.map (relabel modify h) := by
  induction hs generalizing lo with
  | nil => rfl
  | cons hd hs ih =>
      obtain ⟨eol, hat, hrest⟩ := hfrom
      have hle := hat.value_le
      have hother : ∀ e ∈ hs, e ≠ hd := by
        rintro e he rfl
        obtain ⟨lo', eol', hlo, hat'⟩ := hrest.mem he
        have hvalue := hat'.lo_le
        omega
      -- the tail keeps its lengths when the head is the one replaced
      have htail : hs.map (relabel modify hd) = hs := by
        conv_rhs => rw [← List.map_id hs]
        exact List.map_congr_left fun e he => if_neg (hother e he)
      rw [tableAfter]
      cases hcompare : compareName m modify hd.name with
      | error f =>
          rw [replaced_fault hcompare] at hone
          cases hone
      | ok order =>
          simp only
          split
          · rw [replaced_skip hcompare ‹_›] at hone
            have hmem : h ∈ hs :=
              (replaced_sublist size modify m hs).subset (hone ▸ List.mem_singleton_self h)
            rw [ih hrest hone, List.map_cons, relabel, if_neg (hother h hmem).symm]
          · obtain rfl : order = 0 := by omega
            split
            · rename_i hlen
              rw [replaced_last hcompare hlen] at hone
              cases hone
              rw [List.map_cons, htail, relabel, if_pos rfl, ← hlen]
            · rw [replaced_next hcompare ‹_›] at hone
              obtain ⟨rfl, hnone⟩ := List.cons.inj hone
              rw [List.map_cons, htail, tableAfter_nil hnone, relabel, if_pos rfl]

theorem denoted_replaced {lo eol : ℤ} {w : Mem Byte} (hat : EntryAt w size lo h eol) :
    denoted (splice m h.value h.valueLen modify.value size) (relabel modify h h) =
      ((denoted m h).1, modify.value) := by
  unfold relabel
  rw [if_pos rfl]
  refine Prod.ext ?_ (window_store _ _ _)
  show h.name.map _ = h.name.map _
  cases hname : h.name with
  | none => rfl
  | some n =>
      obtain ⟨-, -, hlt⟩ := hat.name_lt n hname
      refine congrArg some (window_congr fun k hk => ?_)
      change k < h.nameLen at hk
      exact splice_below (by omega)

theorem denoted_front {lo eol : ℤ} {w : Mem Byte} {e : PhrHeader}
    (hat : EntryAt w size lo e eol) (hfront : Behind e h) :
    denoted (splice m h.value h.valueLen modify.value size) e = denoted m e := by
  rw [denoted_eq_iff]
  rintro k (⟨n, hname, hk, hk'⟩ | ⟨hk, hk'⟩)
  · obtain ⟨-, -, hlt⟩ := hat.name_lt n hname
    have hvalue := hfront.1
    exact splice_below (by omega)
  · exact splice_below (by have hvalue := hfront.1; omega)

/-- The entries behind the value replaced are the ones to look at. -/
theorem tableAligned_of_one {n : ℕ} {r : PhrRequest}
    (hparse : phrParseRequest (window m 0 n) maxNumHeaders = .ok r)
    (hok : modifyHttpHeaders m n r.headers modify = .ok s)
    (hone : replaced n modify m r.headers = [h]) :
    TableAligned modify m r.headers h s ↔
      ∀ e ∈ r.headers, Behind h e → ∀ k, Covers e k →
        splice m h.value h.valueLen modify.value n k = m k := by
  obtain ⟨hfrom, hcount⟩ := phrParseRequest_entries hparse
  obtain ⟨hloop, htable, -⟩ := modifyHttpHeaders_ok hok
  rw [List.take_of_length_le hcount] at hloop htable
  rw [List.drop_of_length_le hcount, List.append_nil, tableAfter_singleton hfrom hone] at htable
  have hbuffer := modifyEntries_splices hloop
  rw [hone, List.foldl_cons, List.foldl_nil] at hbuffer
  have hmem : h ∈ r.headers :=
    (replaced_sublist n modify m r.headers).subset (hone ▸ List.mem_singleton_self h)
  unfold TableAligned
  rw [htable, List.forall₂_map_right_iff, List.forall₂_same, hbuffer]
  constructor
  · intro hall e he hbehind
    have hsame := hall e he
    rw [relabel, if_neg hbehind.ne.symm, if_neg hbehind.ne.symm] at hsame
    exact denoted_eq_iff.mp hsame
  · intro hcells e he
    obtain ⟨lo, eol, -, hat⟩ := hfrom.mem he
    rcases hfrom.separated he hmem with rfl | hfront | hbehind
    · rw [if_pos rfl]
      exact denoted_replaced hat
    · rw [relabel, if_neg hfront.ne, if_neg hfront.ne]
      exact denoted_front hat hfront
    · rw [relabel, if_neg hbehind.ne.symm, if_neg hbehind.ne.symm]
      exact denoted_eq_iff.mpr (hcells e he hbehind)

/-- **The table after a rewriting.** Of an accepted request whose rewriting
replaces one value, every entry of the table still denotes its own header if that
value has the new length or nothing lies behind it. An entry behind it that has
a byte found nowhere else there denotes something else in all other cases. -/
theorem tableAligned_unmoved {n : ℕ} {r : PhrRequest}
    (hparse : phrParseRequest (window m 0 n) maxNumHeaders = .ok r)
    (hok : modifyHttpHeaders m n r.headers modify = .ok s)
    (hone : replaced n modify m r.headers = [h]) :
    (NothingToMove modify r.headers h → TableAligned modify m r.headers h s) ∧
      ∀ e ∈ r.headers, Behind h e → ∀ k, Covers e k → Unmatched modify m n h k →
        TableAligned modify m r.headers h s → NothingToMove modify r.headers h := by
  rw [tableAligned_of_one hparse hok hone]
  constructor
  · intro hnothing e he hbehind k hk
    exact hnothing.cells he hbehind hk
  · intro e he hbehind k hk hun hcells
    exact Or.inl (hun.same_length (hk.lt hbehind) (hcells e he hbehind k hk))

/-- `Host:a`, with `A:b` in front of it. -/
def hostLastRequest : List Byte :=
  [71, 32, 47, 32, 72, 84, 84, 80, 47, 49, 46, 48, 10, 65, 58, 98, 10, 72, 111, 115, 116, 58, 97,
    10, 10]

theorem hostLastRequest_parsed :
    phrParseRequest (window (requestOf hostLastRequest).buffer 0 25) maxNumHeaders =
      .ok ⟨25, 0, 1, 2, 1, 0, [⟨some 13, 1, 15, 1⟩, ⟨some 17, 4, 22, 1⟩]⟩ := rfl

theorem unmatched_twoHeaderRequest :
    Unmatched hostHeader (requestOf twoHeaderRequest).buffer (25 : ℕ) ⟨some 13, 4, 18, 1⟩ 22 := by
  refine ⟨by decide, ?_, by decide⟩
  intro j hj hj' hcell
  change 19 ≤ j at hj
  change j < 25 at hj'
  interval_cases j <;> first | rfl | exact absurd hcell (by decide)

/-- Nothing lies behind the one `Host:a`, and `B:c` behind the other. -/
theorem tableAligned_hostLastRequest :
    (∃ s, modifyHttpHeaders (requestOf hostLastRequest).buffer (25 : ℕ)
        [⟨some 13, 1, 15, 1⟩, ⟨some 17, 4, 22, 1⟩] hostHeader = .ok s ∧
      TableAligned hostHeader (requestOf hostLastRequest).buffer
        [⟨some 13, 1, 15, 1⟩, ⟨some 17, 4, 22, 1⟩] ⟨some 17, 4, 22, 1⟩ s) ∧
      ∃ s, modifyHttpHeaders (requestOf twoHeaderRequest).buffer (25 : ℕ)
          [⟨some 13, 4, 18, 1⟩, ⟨some 20, 1, 22, 1⟩] hostHeader = .ok s ∧
        ¬ TableAligned hostHeader (requestOf twoHeaderRequest).buffer
          [⟨some 13, 4, 18, 1⟩, ⟨some 20, 1, 22, 1⟩] ⟨some 13, 4, 18, 1⟩ s := by
  constructor
  · refine ⟨_, rfl, (tableAligned_unmoved hostLastRequest_parsed rfl rfl).1 (Or.inr ?_)⟩
    simp [Behind]
  · refine ⟨_, rfl, fun haligned => ?_⟩
    have hbehind : Behind ⟨some 13, 4, 18, 1⟩ ⟨some 20, 1, 22, 1⟩ := by simp [Behind]
    rcases (tableAligned_unmoved twoHeaderRequest_parsed rfl rfl).2 _ (by simp) hbehind 22
      (Or.inr (by simp)) unmatched_twoHeaderRequest haligned with hlen | hnone
    · cases hlen
    · exact hnone _ (by simp) hbehind

/-- The entry of `B:c` denotes bytes of the new host. -/
theorem entry_behind_host_is_not_moved :
    ¬ ∀ (m : Mem Byte) (n : ℕ) (r : PhrRequest) (modify : HttpHeader) (h : PhrHeader)
        (s : ModifyState), phrParseRequest (window m 0 n) maxNumHeaders = .ok r →
      modifyHttpHeaders m n r.headers modify = .ok s → replaced n modify m r.headers = [h] →
      TableAligned modify m r.headers h s := by
  intro hall
  have haligned := hall _ 25 _ hostHeader ⟨some 13, 4, 18, 1⟩ _ twoHeaderRequest_parsed rfl rfl
  cases haligned with
  | cons _ hrest =>
      cases hrest with
      | cons hmoved _ => exact absurd hmoved (by decide)

end Zroxy
