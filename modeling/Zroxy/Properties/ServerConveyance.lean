import Zroxy.Properties.ConveyedPlaintext
import Zroxy.Properties.ServerRuns

/-!
# Every connection of the server

A step of the server makes connections, calls the callback of one, or frees a
handler of one. So what one event does to one connection carries over to all the
connections of a run, in whatever order their events come, together with a record
of what the events of each connection have done (`always_conns_iff`). That is how
`server_conveys_iff` says of the whole server what `conveyed_step_iff` says of one
event.
-/

namespace Zroxy

open OffsetMemory Runs

namespace ServerState

variable {s s' : ServerState} {I : ProxyConnection → Prop}
  {H C : ProxyConnection → SockEvent → Prop}

/-- Each connection satisfies `I`. -/
def EachConn (I : ProxyConnection → Prop) (s : ServerState) : Prop := ∀ c ∈ s.conns, I c.proxy

/-- The next callback, if it is that of a connection, satisfies `C`. -/
def OnCallback (C : ProxyConnection → SockEvent → Prop) (s : ServerState) : ServerEvent → Prop
  | .dispatch => ∀ i t r rest c, s.batch = (.proxy (i, t), r) :: rest → s.conns[i]? = some c →
      C c.proxy ⟨t, r.events, r.env⟩
  | _ => True

theorem acceptNewConn_conns {clients : List Accepted} {ending : AcceptEnd}
    (haccept : acceptNewConn clients ending s = .ok s') :
    ∃ new, s'.conns = s.conns ++ new ∧ ∀ c ∈ new, ∃ heap clientFd backendFd,
      c.proxy = .newConnection heap clientFd .sslConn backendFd .sslConn := by
  induction clients generalizing s with
  | nil =>
      obtain rfl := acceptNewConn_nil haccept
      exact ⟨[], (List.append_nil _).symm, List.forall_mem_nil _⟩
  | cons a clients ih =>
      obtain ⟨-, s₁, hclient, hrest⟩ := acceptNewConn_cons haccept
      obtain ⟨addrs, d, b, connected, timerFd, -, -, -, rfl⟩ := handleClient_ok hclient
      obtain ⟨new, hconns, hnew⟩ := ih hrest
      refine ⟨_ :: new, by rw [hconns, List.append_assoc, List.singleton_append], ?_⟩
      exact List.forall_mem_cons.mpr ⟨⟨_, _, _, rfl⟩, hnew⟩

theorem handleAcceptingConnections_conns {r : Report}
    (haccept : s.handleAcceptingConnections r = .ok s') :
    ∃ new, s'.conns = s.conns ++ new ∧ ∀ c ∈ new, ∃ heap clientFd backendFd,
      c.proxy = .newConnection heap clientFd .sslConn backendFd .sslConn := by
  rcases handleAcceptingConnections_cases haccept with ⟨-, rfl⟩ | ⟨-, -, hclients⟩ | ⟨-, -, rfl⟩
  · exact ⟨[], (List.append_nil _).symm, List.forall_mem_nil _⟩
  · exact acceptNewConn_conns hclients
  · exact ⟨[], (List.append_nil _).symm, List.forall_mem_nil _⟩

/-! ## Records of the connections -/

section

variable {α : Type*} {out : ProxyConnection → SockEvent → List α}
  {P : ProxyConnection → List α → Prop} {log log' : List (ℕ × α)}

/-- What the next event of the batch is recorded as, with the number of its
connection. -/
def emits (out : ProxyConnection → SockEvent → List α) (s : ServerState) :
    ServerEvent → List (ℕ × α)
  | .dispatch =>
      match s.batch with
      | (.proxy (i, t), r) :: _ =>
          match s.conns[i]? with
          | some c => (out c.proxy ⟨t, r.events, r.env⟩).map fun a => (i, a)
          | none => []
      | _ => []
  | _ => []

/-- Each connection and its own record satisfy `P`. -/
def EachRecorded (P : ProxyConnection → List α → Prop) (x : ServerState × List (ℕ × α)) : Prop :=
  ∀ i c, x.1.conns[i]? = some c → P c.proxy (recordOf i x.2)

/-- Nothing is recorded of a connection that has not been made. -/
def OfConns (x : ServerState × List (ℕ × α)) : Prop := ∀ y ∈ x.2, y.1 < x.1.conns.length

theorem EachRecorded.append {new : List TimedConnection} (h : EachRecorded P (s, log))
    (hlog : OfConns (s, log)) (hconns : s'.conns = s.conns ++ new)
    (hnew : ∀ c ∈ new, P c.proxy []) :
    EachRecorded P (s', log) ∧ OfConns (s', log) := by
  constructor
  · intro i c hc
    change s'.conns[i]? = some c at hc
    rw [hconns] at hc
    rcases lt_or_ge i s.conns.length with hi | hi
    · rw [List.getElem?_append_left hi] at hc
      exact h i c hc
    · rw [List.getElem?_append_right hi] at hc
      have hempty : recordOf i log = [] :=
        recordOf_eq_nil fun y hy => ((hlog y hy).trans_le hi).ne
      show P c.proxy (recordOf i log)
      rw [hempty]
      exact hnew c (List.mem_of_getElem? hc)
  · intro y hy
    show y.1 < s'.conns.length
    rw [hconns, List.length_append]
    exact (hlog y hy).trans_le (Nat.le_add_right _ _)

theorem eachRecorded_set_iff {i : ℕ} {c c' : TimedConnection} {xs : List α}
    (hc : s.conns[i]? = some c) (hconns : s'.conns = s.conns.set i c')
    (h : EachRecorded P (s, log)) :
    EachRecorded P (s', log ++ xs.map fun a => (i, a)) ↔ P c'.proxy (recordOf i log ++ xs) := by
  have hlt := (List.getElem?_eq_some_iff.mp hc).1
  have hself : recordOf i (log ++ xs.map fun a => (i, a)) = recordOf i log ++ xs := by simp
  constructor
  · intro hall
    have hset : s'.conns[i]? = some c' := by rw [hconns, List.getElem?_set_self hlt]
    exact hself ▸ hall i c' hset
  · intro hone j d hd
    change s'.conns[j]? = some d at hd
    rw [hconns] at hd
    by_cases hj : i = j
    · subst hj
      rw [List.getElem?_set_self hlt] at hd
      cases hd
      exact hself.symm ▸ hone
    · rw [List.getElem?_set_ne hj] at hd
      have hother : recordOf j (log ++ xs.map fun a => (i, a)) = recordOf j log := by
        rw [recordOf_append, recordOf_eq_nil (l := xs.map _) (by simpa using fun _ _ => hj),
          List.append_nil]
      show P d.proxy (recordOf j (log ++ xs.map fun a => (i, a)))
      rw [hother]
      exact h j d hd

/-- What is known of a property `P` of a connection and its record: under the
invariant `I` and the condition `H` one callback keeps `P` exactly if `C` holds. -/
structure ExactOnCallbacks (out : ProxyConnection → SockEvent → List α)
    (I : ProxyConnection → Prop) (P : ProxyConnection → List α → Prop)
    (H C : ProxyConnection → SockEvent → Prop) : Prop where
  new : ∀ heap clientFd backendFd,
    I (.newConnection heap clientFd .sslConn backendFd .sslConn) ∧
      P (.newConnection heap clientFd .sslConn backendFd .sslConn) []
  callback : ∀ p e p' l, I p → P p l → H p e → p.proxyEventsCallback e = .ok p' →
    (P p' (l ++ out p e) ↔ C p e) ∧ I p'
  drain : ∀ p t l, I p → P p l → I (p.freeProxyObj t) ∧ P (p.freeProxyObj t) l

/-- **One step of the server.** -/
theorem ExactOnCallbacks.step (hexact : ExactOnCallbacks out I P H C) {e : ServerEvent}
    (hinv : s.EachConn I) (hlog : OfConns (s, log)) (h : EachRecorded P (s, log))
    (hH : s.OnCallback H e) (hstep : s.step e = .ok s') :
    (EachRecorded P (s', log ++ s.emits out e) ↔ s.OnCallback C e) ∧ s'.EachConn I ∧
      OfConns (s', log ++ s.emits out e) := by
  cases e with
  | epollWait reports =>
      obtain ⟨-, -, -, rfl⟩ := step_epollWait hstep
      have hnone : s.emits out (.epollWait reports) = [] := rfl
      rw [hnone, List.append_nil]
      exact ⟨iff_of_true h trivial, hinv, hlog⟩
  | dispatch =>
      rcases step_dispatch hstep with ⟨r, rest, hbatch, haccept⟩ |
        ⟨i, t, r, rest, c, p, hbatch, hc, hcall, rfl⟩
      · -- the connections are those in front of the listener's callback, and new ones
        obtain ⟨new, hconns, hnew⟩ := handleAcceptingConnections_conns haccept
        have hnone : s.emits out .dispatch = [] := by
          unfold emits
          rw [hbatch]
        obtain ⟨hrecorded, hlog'⟩ := h.append hlog hconns (by
          intro c hc
          obtain ⟨heap, clientFd, backendFd, hproxy⟩ := hnew c hc
          rw [hproxy]
          exact (hexact.new _ _ _).2)
        rw [hnone, List.append_nil]
        refine ⟨iff_of_true hrecorded ?_, ?_, hlog'⟩
        · intro i t r' rest' c hbatch'
          rw [hbatch] at hbatch'
          cases hbatch'
        · intro c hc
          rw [hconns] at hc
          rcases List.mem_append.mp hc with hc | hc
          · exact hinv c hc
          · obtain ⟨heap, clientFd, backendFd, hproxy⟩ := hnew c hc
            rw [hproxy]
            exact (hexact.new _ _ _).1
      · have hmem := List.mem_of_getElem? hc
        obtain ⟨hiff, hnext⟩ := hexact.callback _ _ _ _ (hinv c hmem) (h i c hc)
          (hH i t r rest c hbatch hc) hcall
        have hcond : s.OnCallback C .dispatch ↔ C c.proxy ⟨t, r.events, r.env⟩ := by
          constructor
          · exact fun hall => hall i t r rest c hbatch hc
          · intro hone i' t' r' rest' c' hbatch' hc'
            rw [hbatch] at hbatch'
            cases hbatch'
            rw [hc] at hc'
            cases hc'
            exact hone
        have hemits : s.emits out .dispatch =
            (out c.proxy ⟨t, r.events, r.env⟩).map fun a => (i, a) := by
          simp only [emits, hbatch, hc]
        rw [hcond, ← hiff, hemits]
        refine ⟨@eachRecorded_set_iff s _ _ P log i c { c with proxy := p } _ hc rfl h, ?_, ?_⟩
        · intro d hd
          rcases List.mem_or_eq_of_mem_set hd with hd | rfl
          · exact hinv d hd
          · exact hnext
        · intro y hy
          show y.1 < (s.conns.set i _).length
          rw [List.length_set]
          rcases List.mem_append.mp hy with hy | hy
          · exact hlog y hy
          · obtain ⟨a, -, rfl⟩ := List.mem_map.mp hy
            exact (List.getElem?_eq_some_iff.mp hc).1
  | drain =>
      obtain ⟨i, t, rest, c, -, -, hc, rfl⟩ := step_drain hstep
      have hmem := List.mem_of_getElem? hc
      obtain ⟨hnext, hP⟩ := hexact.drain _ t _ (hinv c hmem) (h i c hc)
      have hset := @eachRecorded_set_iff s
        { s with
          conns := s.conns.set i { c with proxy := c.proxy.freeProxyObj t }
          entry := rest } _ P log i c { c with proxy := c.proxy.freeProxyObj t } [] hc rfl h
      rw [List.map_nil, List.append_nil, List.append_nil] at hset
      have hnone : s.emits out .drain = [] := rfl
      rw [hnone, List.append_nil]
      refine ⟨iff_of_true (hset.mpr hP) trivial, ?_, fun y hy => ?_⟩
      · intro d hd
        rcases List.mem_or_eq_of_mem_set hd with hd | rfl
        · exact hinv d hd
        · exact hnext
      · show y.1 < (s.conns.set i _).length
        rw [List.length_set]
        exact hlog y hy

/-- **All connections of a run.** -/
theorem ExactOnCallbacks.always_conns_iff (hexact : ExactOnCallbacks out I P H C) {env : MainEnv}
    {openFds : Finset ℤ} (hstart : startServer env openFds = some s) {es : List ServerEvent}
    (hH : EachStep ServerState.step (OnCallback H) s es) :
    Always (recorded ServerState.step (emits out)) (EachRecorded P) (s, []) es ↔
      EachStep ServerState.step (OnCallback C) s es := by
  have hnone : s.conns = [] := by
    obtain ⟨addrs, d, b, epollFd, -, -, -, rfl⟩ := startServer_ok hstart
    rfl
  have hinit : s.EachConn I := by
    intro c hc
    rw [hnone] at hc
    cases hc
  have hrecorded : EachRecorded P (s, []) := by
    intro i c hc
    change s.conns[i]? = some c at hc
    rw [hnone] at hc
    cases hc
  have hnothing : OfConns (s, ([] : List (ℕ × α))) := List.forall_mem_nil _
  refine Iff.trans (always_iff_eachStep_of (I := fun x => x.1.EachConn I ∧ OfConns x)
    (H := fun x e => x.1.OnCallback H e) ?_ ?_ ⟨hinit, hnothing⟩ hrecorded
    (eachStep_recorded_iff.mpr hH)) eachStep_recorded_iff
  · rintro ⟨s, log⟩ e ⟨s', log'⟩ ⟨hinv, hlog⟩ h hH hrun
    obtain ⟨hstep, rfl⟩ := recorded_ok_iff.mp hrun
    exact (hexact.step hinv hlog h hH hstep).1
  · rintro ⟨s, log⟩ e ⟨s', log'⟩ ⟨hinv, hlog⟩ h hH hrun _
    obtain ⟨hstep, rfl⟩ := recorded_ok_iff.mp hrun
    exact (hexact.step hinv hlog h hH hstep).2

end

/-! ## Plaintext -/

open ProxyConnection in
theorem exact_conveyed : ExactOnCallbacks handed Conveying Conveyed Behaves Forwards where
  new := newConnection_conveying
  callback := fun _ _ _ _ h hconveyed hbehaves hstep =>
    conveyed_step_iff h hconveyed hbehaves hstep
  drain := fun _ t _ h hconveyed => (conveyed_freeProxyObj h hconveyed t).symm

/-- Every connection has conveyed the pieces that its events have handed over. -/
def Conveys : ServerState × List (ℕ × Side × List Byte) → Prop :=
  EachRecorded ProxyConnection.Conveyed

end ServerState

/-- The client 5 of `acceptOne` is readable and writable, and nothing comes of
it. -/
def acceptAndWait : List ServerEvent :=
  acceptOne ++ [.epollWait [⟨5, epollIn ||| epollOut, [], .again, noAnswers⟩], .dispatch]

/-- Without answers there is nothing to take and nothing to decrypt. -/
theorem behaves_noAnswers (p : ProxyConnection) (t : SockType) (events : UInt32) :
    p.Behaves ⟨t, events, noAnswers⟩ := by
  intro _ me _
  refine ⟨⟨?_, ?_⟩, fun _ => trivial⟩
  · cases (p.base me.peer).params <;> trivial
  · cases (p.base me).params <;> trivial

theorem acceptAndWait_behaves {s : ServerState} :
    EachStep ServerState.step (ServerState.OnCallback ProxyConnection.Behaves) s
      acceptAndWait := by
  intro s₁ h₁
  obtain ⟨-, -, -, rfl⟩ := ServerState.step_epollWait h₁
  refine ⟨trivial, fun s₂ _ => ⟨?_, fun s₃ h₃ => ?_⟩⟩
  · intro i t r rest c hbatch _
    obtain ⟨⟨-, rfl⟩, -⟩ : (_ ∧ _ = r) ∧ _ := by simpa using hbatch
    exact behaves_noAnswers _ _ _
  · obtain ⟨-, -, -, rfl⟩ := ServerState.step_epollWait h₃
    refine ⟨trivial, fun s₄ _ => ⟨?_, trivial⟩⟩
    intro i t r rest c hbatch _
    obtain ⟨⟨-, rfl⟩, -⟩ : (_ ∧ _ = r) ∧ _ := by simpa using hbatch
    exact behaves_noAnswers _ _ _

end Zroxy
