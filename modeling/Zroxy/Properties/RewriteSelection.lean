import Zroxy.Parsers.HeaderTable

/-!
# Which headers a rewriting replaces

The loop of `zxy_modify_http_headers` ignores the length of a header's name, so an
entry is taken for the one looked for when the bytes at its name pointer begin
with the name, and always when the name has the length of one word. Behind a
value of another length the later entries point to bytes that have moved.

`namedOnly_iff` says when only entries with the name in full are replaced.
-/

namespace Zroxy

open OffsetMemory Runs Pico

variable {size : ℤ} {modify : HttpHeader} {m m' : Mem Byte} {h : PhrHeader} {hs : List PhrHeader}

/-- Only entries with the full name are replaced, and if there is exactly one
such entry, it is. -/
def NamedOnly (size : ℤ) (modify : HttpHeader) (m : Mem Byte) (hs : List PhrHeader) : Prop :=
  (∀ h ∈ replaced size modify m (hs.take maxNumHeaders), Carries m modify h) ∧
    ∀ h, hs.filter (Carries m modify) = [h] →
      replaced size modify m (hs.take maxNumHeaders) = [h]

/-- Each entry that begins with the name, when its turn comes, has the full name:
up to the first of them in the memory of the request, and behind it in the
memory with the new value spliced in. -/
def BeginsOnlyNamed (size : ℤ) (modify : HttpHeader) (request : Mem Byte) :
    Mem Byte → List PhrHeader → Prop
  | _, [] => True
  | m, h :: hs =>
      if ∃ n ∈ h.name, Begins m modify n then
        Carries request modify h ∧
          (h.valueLen = modify.value.length ∨
            BeginsOnlyNamed size modify request
              (splice m h.value h.valueLen modify.value size) hs)
      else BeginsOnlyNamed size modify request m hs

theorem compareName_named (hnul : 0 ∉ modify.name) (hname : h.name ≠ none) :
    (∃ n ∈ h.name, Begins m modify n) ∧ compareName m modify h.name = .ok 0 ∨
      (¬ ∃ n ∈ h.name, Begins m modify n) ∧
        ∃ order, compareName m modify h.name = .ok order ∧ order ≠ 0 := by
  obtain ⟨n, hn⟩ := Option.ne_none_iff_exists'.mp hname
  rw [hn]
  simp only [Option.mem_some_iff, exists_eq_left']
  by_cases hbegins : Begins m modify n
  · exact Or.inl ⟨hbegins, (compareName_some_iff hnul).mpr hbegins⟩
  · refine Or.inr ⟨hbegins, _, rfl, fun hzero => hbegins ?_⟩
    exact (compareName_some_iff hnul).mp (congrArg Except.ok hzero)

/-- **The entries replaced** have the full name exactly when those that begin
with it do. -/
theorem forall_replaced_carries_iff {request : Mem Byte} (hnul : 0 ∉ modify.name)
    (hnamed : ∀ h ∈ hs, h.name ≠ none) :
    (∀ h ∈ replaced size modify m hs, Carries request modify h) ↔
      BeginsOnlyNamed size modify request m hs := by
  induction hs generalizing m with
  | nil => exact iff_of_true nofun trivial
  | cons hd hs ih =>
      obtain ⟨hname, hnamed⟩ := List.forall_mem_cons.mp hnamed
      rw [BeginsOnlyNamed]
      rcases compareName_named hnul hname with ⟨hbegins, hok⟩ | ⟨hbegins, order, hok, hne⟩
      · rw [if_pos hbegins]
        by_cases hlen : hd.valueLen = modify.value.length
        · rw [replaced_last hok hlen]
          simp [hlen]
        · rw [replaced_next hok hlen, List.forall_mem_cons, ih hnamed, replaceValue_eq_splice,
            or_iff_right hlen]
      · rw [if_neg hbegins, replaced_skip hok hne, ih hnamed]

theorem not_carries_of_replaced_nil (hnamed : ∀ h ∈ hs, h.name ≠ none)
    (hnone : replaced size modify m hs = []) : ∀ h ∈ hs, ¬ Carries m modify h := by
  induction hs with
  | nil => exact nofun
  | cons hd hs ih =>
      obtain ⟨hname, hnamed⟩ := List.forall_mem_cons.mp hnamed
      obtain ⟨order, hok⟩ := exists_order m modify hname
      rw [List.forall_mem_cons]
      by_cases hzero : order = 0
      · subst hzero
        by_cases hlen : hd.valueLen = modify.value.length
        · rw [replaced_last hok hlen] at hnone
          cases hnone
        · rw [replaced_next hok hlen] at hnone
          cases hnone
      · rw [replaced_skip hok hzero] at hnone
        refine ⟨fun hc => hzero ?_, ih hnamed hnone⟩
        exact Except.ok.inj (hok.symm.trans hc.compareName)

theorem replaced_unique (hnamed : ∀ h ∈ hs, h.name ≠ none)
    (honly : ∀ h ∈ replaced size modify m hs, Carries m modify h)
    (hone : hs.filter (Carries m modify) = [h]) : replaced size modify m hs = [h] := by
  have hsub : (replaced size modify m hs).Sublist [h] := by
    have hfilter := (replaced_sublist size modify m hs).filter (Carries m modify)
    rwa [hone, List.filter_eq_self.mpr (by simpa using honly)] at hfilter
  rcases List.sublist_singleton.mp hsub with hnone | hsame
  · have hmem : h ∈ hs.filter (Carries m modify) := hone ▸ List.mem_singleton_self h
    obtain ⟨hh, hc⟩ := List.mem_filter.mp hmem
    exact absurd (by simpa using hc) (not_carries_of_replaced_nil hnamed hnone h hh)
  · exact hsame

/-- **Which headers are replaced**, exactly. In an accepted request without
continuation lines, and for a NUL-free name, only the entries with the full name
are replaced, a single one always, if and only if no other entry begins with the
name when its turn comes. -/
theorem namedOnly_iff {n : ℕ} {r : PhrRequest}
    (hparse : phrParseRequest (window m 0 n) maxNumHeaders = .ok r)
    (hnamed : ∀ h ∈ r.headers, h.name ≠ none) (hnul : 0 ∉ modify.name) :
    NamedOnly n modify m r.headers ↔ BeginsOnlyNamed n modify m m r.headers := by
  obtain ⟨-, hcount⟩ := phrParseRequest_entries hparse
  unfold NamedOnly
  rw [List.take_of_length_le hcount, ← forall_replaced_carries_iff hnul hnamed]
  constructor
  · rintro ⟨honly, -⟩
    exact honly
  · intro honly
    exact ⟨honly, fun h hone => replaced_unique hnamed honly hone⟩

/-- Behind `Host:a`, `B:c` is looked for in the new value. -/
theorem namedOnly_twoHeaderRequest :
    NamedOnly (25 : ℕ) hostHeader (requestOf twoHeaderRequest).buffer
        [⟨some 13, 4, 18, 1⟩, ⟨some 20, 1, 22, 1⟩] ↔
      BeginsOnlyNamed (25 : ℕ) hostHeader (requestOf twoHeaderRequest).buffer
        (requestOf twoHeaderRequest).buffer [⟨some 13, 4, 18, 1⟩, ⟨some 20, 1, 22, 1⟩] :=
  namedOnly_iff twoHeaderRequest_parsed (by simp) (by decide)

/-- `Hostname: x`, written without the blank. -/
def hostnameRequest : List Byte :=
  [71, 32, 47, 32, 72, 84, 84, 80, 47, 49, 46, 48, 10, 72, 111, 115, 116, 110, 97, 109, 101, 58,
    120, 10, 10]

/-- It has its value replaced. -/
theorem hostname_is_replaced :
    ¬ ∀ (m : Mem Byte) (n : ℕ) (r : PhrRequest) (modify : HttpHeader),
      phrParseRequest (window m 0 n) maxNumHeaders = .ok r →
      (∀ h ∈ r.headers, h.name ≠ none) → 0 ∉ modify.name → NamedOnly n modify m r.headers := by
  intro hall
  have hparse : phrParseRequest (window (requestOf hostnameRequest).buffer 0 25) maxNumHeaders =
      .ok ⟨25, 0, 1, 2, 1, 0, [⟨some 13, 8, 22, 1⟩]⟩ := rfl
  obtain ⟨honly, -⟩ := hall _ 25 _ hostHeader hparse (by simp) (by decide)
  exact absurd (honly ⟨some 13, 8, 22, 1⟩ (by decide)) (by decide)

end Zroxy
