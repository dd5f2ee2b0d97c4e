import Zroxy.Parsers.HostRewriting

/-!
# The header table under `zxy_modify_http_headers`

`modifyEntries` and `tableAfter` say what the loop leaves. Here is what it does on
the way: the entries it comes to, with the memory it finds them in (`looks`), and
the ones whose value it replaces (`replaced`).

A NUL-free name is found where the bytes at the name pointer begin with it, or
always, if it has the length of one word.
-/

namespace Zroxy

open OffsetMemory Runs Pico

structure Look where
  buffer : Mem Byte
  entry : PhrHeader

/-- The name of the entry compares equal. -/
def Look.selected (modify : HttpHeader) (l : Look) : Bool :=
  match compareName l.buffer modify l.entry.name with
  | .ok order => order == 0
  | .error _ => false

theorem Look.selected_iff {modify : HttpHeader} {l : Look} :
    l.selected modify = true ↔ compareName l.buffer modify l.entry.name = .ok 0 := by
  unfold Look.selected
  split <;> simp [*]

/-- The entries the loop comes to: it ends at a NULL name that is read, and at a
value of the new length. -/
def looks (size : ℤ) (modify : HttpHeader) : Mem Byte → List PhrHeader → List Look
  | _, [] => []
  | m, h :: hs => ⟨m, h⟩ ::
      match compareName m modify h.name with
      | .error _ => []
      | .ok order =>
          if order ≠ 0 then looks size modify m hs
          else if h.valueLen = modify.value.length then []
          else looks size modify (replaceValue size modify m h) hs

def replaced (size : ℤ) (modify : HttpHeader) (m : Mem Byte) (hs : List PhrHeader) :
    List PhrHeader :=
  ((looks size modify m hs).filter (Look.selected modify)).map Look.entry

variable {size : ℤ} {modify : HttpHeader} {m m' : Mem Byte} {h : PhrHeader} {hs : List PhrHeader}

/-! ## One entry -/

theorem replaced_fault {f : Fault} (hfault : compareName m modify h.name = .error f) :
    replaced size modify m (h :: hs) = [] := by
  simp [replaced, looks, Look.selected, hfault]

theorem replaced_skip {order : ℤ} (hok : compareName m modify h.name = .ok order)
    (hne : order ≠ 0) : replaced size modify m (h :: hs) = replaced size modify m hs := by
  simp [replaced, looks, Look.selected, hok, hne]

theorem replaced_last (hok : compareName m modify h.name = .ok 0)
    (hlen : h.valueLen = modify.value.length) : replaced size modify m (h :: hs) = [h] := by
  simp [replaced, looks, Look.selected, hok, hlen]

theorem replaced_next (hok : compareName m modify h.name = .ok 0)
    (hlen : h.valueLen ≠ modify.value.length) :
    replaced size modify m (h :: hs) =
      h :: replaced size modify (replaceValue size modify m h) hs := by
  simp [replaced, looks, Look.selected, hok, hlen]

theorem looks_prefix : ∀ {hs : List PhrHeader} {m : Mem Byte},
    (looks size modify m hs).map Look.entry <+: hs
  | [], _ => List.nil_prefix
  | h :: hs, m => by
      rw [looks, List.map_cons, List.cons_prefix_cons]
      refine ⟨rfl, ?_⟩
      split
      · exact List.nil_prefix
      · split
        · exact looks_prefix
        · split
          · exact List.nil_prefix
          · exact looks_prefix

theorem replaced_sublist (size : ℤ) (modify : HttpHeader) (m : Mem Byte) (hs : List PhrHeader) :
    (replaced size modify m hs).Sublist hs :=
  (List.filter_sublist.map Look.entry).trans looks_prefix.sublist

/-! ## Values -/

/-- The memory after the loop: one splice for each value replaced. -/
theorem modifyEntries_splices : ∀ {hs : List PhrHeader} {m : Mem Byte},
    modifyEntries size modify m hs = .ok m' →
      m' = (replaced size modify m hs).foldl
        (fun m h => splice m h.value h.valueLen modify.value size) m
  | [], m, hok => by
      cases hok
      rfl
  | h :: hs, m, hok => by
      obtain ⟨order, horder, hok⟩ := bind_ok hok
      split at hok
      · rw [replaced_skip horder ‹_›]
        exact modifyEntries_splices hok
      · obtain rfl : order = 0 := by omega
        split at hok
        · cases hok
          rw [replaced_last horder ‹_›, List.foldl_cons, List.foldl_nil, replaceValue_eq_splice]
        · rw [replaced_next horder ‹_›, List.foldl_cons, ← replaceValue_eq_splice]
          exact modifyEntries_splices hok

/-! ## Names -/

theorem exists_order (m : Mem Byte) (modify : HttpHeader) (hname : h.name ≠ none) :
    ∃ order, compareName m modify h.name = .ok order := by
  obtain ⟨n, hn⟩ := Option.ne_none_iff_exists'.mp hname
  rw [hn]
  exact ⟨_, rfl⟩

/-- The bytes at the name pointer begin with the name, or the name has the length
of one word. -/
def Begins (m : Mem Byte) (modify : HttpHeader) (name : ℤ) : Prop :=
  modify.name.length = wordSize ∨ window m name modify.name.length = modify.name

instance (m : Mem Byte) (modify : HttpHeader) (name : ℤ) : Decidable (Begins m modify name) := by
  unfold Begins
  infer_instance

theorem namePtr_eq {k : ℕ} (hk : k < modify.name.length) : modify.namePtr k = modify.name[k] := by
  simp [HttpHeader.namePtr, hk]

theorem compareName_of_window {name : ℤ}
    (hname : window m name modify.name.length = modify.name) :
    compareName m modify (some name) = .ok 0 := by
  refine congrArg Except.ok (fastCompare_of_agree fun k hk => ?_)
  have hcell := List.getElem_of_eq hname (i := k) (by simpa using hk)
  rw [window_getElem] at hcell
  rw [hcell, namePtr_eq hk]

/-- **When an entry is selected**: not when its name is the one looked for, but
when it begins with it. -/
theorem compareName_some_iff (hnul : 0 ∉ modify.name) {name : ℤ} :
    compareName m modify (some name) = .ok 0 ↔ Begins m modify name := by
  have hne : ∀ k, k < modify.name.length → modify.namePtr k ≠ 0 := by
    intro k hk hzero
    rw [namePtr_eq hk] at hzero
    exact hnul (hzero ▸ List.getElem_mem hk)
  constructor
  · intro hzero
    refine ((fastCompare_eq_zero_iff hne).mp (Except.ok.inj hzero)).imp_right fun hall => ?_
    apply List.ext_getElem (window_length _ _ _)
    intro k hk hk'
    rw [window_getElem, hall k hk', namePtr_eq hk']
  · rintro (hlen | hwindow)
    · exact congrArg Except.ok ((fastCompare_eq_zero_iff hne).mpr (Or.inl hlen))
    · exact compareName_of_window hwindow

/-- The full name of the entry is the one looked for. -/
def Carries (m : Mem Byte) (modify : HttpHeader) (h : PhrHeader) : Prop :=
  h.name.map (fun n => window m n h.nameLen) = some modify.name

instance (m : Mem Byte) (modify : HttpHeader) (h : PhrHeader) : Decidable (Carries m modify h) := by
  unfold Carries
  infer_instance

theorem Carries.compareName (hc : Carries m modify h) : compareName m modify h.name = .ok 0 := by
  unfold Carries at hc
  cases hname : h.name with
  | none =>
      rw [hname] at hc
      cases hc
  | some n =>
      rw [hname, Option.map_some, Option.some.injEq] at hc
      have hlen : h.nameLen = modify.name.length := by rw [← hc, window_length]
      rw [hlen] at hc
      exact compareName_of_window hc

/-! ## Requests to look at -/

/-- `G / HTTP/1.0`, and the one header `Host:a`. -/
def hostRequest : List Byte :=
  [71, 32, 47, 32, 72, 84, 84, 80, 47, 49, 46, 48, 10, 72, 111, 115, 116, 58, 97, 10, 10]

theorem hostRequest_parsed :
    phrParseRequest (window (requestOf hostRequest).buffer 0 21) maxNumHeaders =
      .ok ⟨21, 0, 1, 2, 1, 0, [⟨some 13, 4, 18, 1⟩]⟩ := rfl

/-- `Host:a`, and `B:c` behind it. -/
def twoHeaderRequest : List Byte :=
  [71, 32, 47, 32, 72, 84, 84, 80, 47, 49, 46, 48, 10, 72, 111, 115, 116, 58, 97, 10,
    66, 58, 99, 10, 10]

theorem twoHeaderRequest_parsed :
    phrParseRequest (window (requestOf twoHeaderRequest).buffer 0 25) maxNumHeaders =
      .ok ⟨25, 0, 1, 2, 1, 0, [⟨some 13, 4, 18, 1⟩, ⟨some 20, 1, 22, 1⟩]⟩ := rfl

end Zroxy
