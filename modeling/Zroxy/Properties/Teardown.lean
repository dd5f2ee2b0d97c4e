import Zroxy.Events.LoopInvariant

/-!
# Tearing a connection down

Along every run of the event loop, with any batches, a connection is freed once,
when the run has taken its three handlers off the free list, and nothing of it is
used afterwards (`teardown_once`).

Its descriptors are another matter. The two sockets are taken out of the epoll
set and closed, once each, by whoever comes first; the timer descriptor is taken
out of the epoll set and never closed, so no connection that is freed has all
three released (`descriptors_released_iff`).
-/

namespace Zroxy

open OffsetMemory Runs

namespace ProxyConnection

/-- What was called, queued, drained and freed, over the whole life of a
connection. -/
structure FreedOnce (p : ProxyConnection) : Prop where
  freeParams_once : ∀ side, p.calls.count (side, .freeParams) ≤ 1
  /-- After `free_params` of a side no member of that side is called. -/
  no_call_after : p.calls.Pairwise fun f g => f.2 = .freeParams → g.1 ≠ f.1
  queued_once : p.queued.Nodup
  drained_once : p.drained.Nodup
  freed_iff : p.freed = true ↔ ∀ t, t ∈ p.drained

variable {p : ProxyConnection}

theorem Running.freedOnce (h : p.Running) : p.FreedOnce where
  freeParams_once := by
    intro side
    rw [List.count_eq_zero.mpr fun hmem => h.calls _ hmem rfl]
    exact Nat.zero_le 1
  no_call_after := by
    refine List.pairwise_of_forall_mem_list fun f hf g _ hfree => ?_
    exact absurd hfree (h.calls f hf)
  queued_once := by simp [h.queued]
  drained_once := by simp [h.drained]
  freed_iff := by
    rw [h.freed, h.drained]
    exact iff_of_false (by simp) fun hall => absurd (hall .clientSock) List.not_mem_nil

theorem Ended.drained_eq (h : p.Ended) : p.drained = freeOrder.take p.drained.length :=
  List.prefix_iff_eq_take.mp h.drained

theorem Ended.freed_iff (h : p.Ended) : p.freed = true ↔ ∀ t, t ∈ p.drained := by
  have hle : p.drained.length ≤ 3 := h.drained.length_le
  rw [h.freed, decide_eq_true_eq]
  constructor
  · intro hlen t
    rw [h.drained_eq, hlen]
    cases t <;> decide
  · intro hall
    by_contra hne
    -- the client's and the backend's handler are drained after the timer's
    have hback := hall .backendSock
    rw [h.drained_eq] at hback
    obtain hlen | hlen | hlen : p.drained.length = 0 ∨ p.drained.length = 1 ∨
        p.drained.length = 2 := by omega
    all_goals
      rw [hlen] at hback
      exact absurd hback (by decide)

theorem Ended.freedOnce (h : p.Ended) : p.FreedOnce where
  freeParams_once := by
    obtain ⟨fs, hcalls, hnone⟩ := h.calls
    intro side
    rw [hcalls, List.count_append, List.count_eq_zero.mpr fun hmem => hnone _ hmem rfl]
    cases side <;> decide
  no_call_after := by
    obtain ⟨fs, hcalls, hnone⟩ := h.calls
    rw [hcalls, List.pairwise_append]
    refine ⟨?_, by decide, fun f hf g _ hfree => absurd hfree (hnone f hf)⟩
    exact List.pairwise_of_forall_mem_list fun f hf g _ hfree => absurd hfree (hnone f hf)
  queued_once := by
    rw [h.queued]
    decide
  drained_once := h.drained.sublist.nodup (by decide)
  freed_iff := h.freed_iff

end ProxyConnection

namespace LoopState

variable {s s' : LoopState}

/-- Every connection is freed once, and neither the batch nor the free list
leads to a handler that has been freed already. -/
structure TeardownOnce (s : LoopState) : Prop where
  conns : ∀ p ∈ s.conns, p.FreedOnce
  pending : ∀ x ∈ s.batch, ∃ p, s.conns[x.1]? = some p ∧ x.2.sockType ∉ p.drained ∧
    p.freed = false
  listed : ∀ h ∈ s.entry, ∃ p, s.conns[h.1]? = some p ∧ h.2 ∉ p.drained ∧ p.freed = false

theorem LoopInv.teardownOnce (h : LoopInv s) : s.TeardownOnce where
  conns := fun p hp => (h.conns p hp).elim (·.freedOnce) (·.freedOnce)
  pending := by
    intro x hx
    obtain ⟨p, hp, hnone, -⟩ := h.batch x hx
    refine ⟨p, hp, by simp [hnone], ?_⟩
    rcases h.running_or_ended hp with hrun | hend
    · exact hrun.freed
    · simp [hend.freed, hnone]
  listed := by
    intro x hx
    obtain ⟨p, hp⟩ : ∃ p, s.conns[x.1]? = some p :=
      ⟨_, List.getElem?_eq_getElem (h.indices x hx)⟩
    have hmem : x.2 ∈ s.freeing x.1 :=
      List.mem_map.mpr ⟨x, List.mem_filter.mpr ⟨hx, by simp⟩, rfl⟩
    have hall := h.entry x.1 p hp
    -- nothing of a running connection is on the free list
    have hup : p.timerStatusAndFd = timerIsUp := by
      by_contra hne
      rw [if_neg hne] at hall
      rw [(List.append_eq_nil_iff.mp hall).2] at hmem
      exact List.not_mem_nil hmem
    rw [if_pos hup] at hall
    have hnot : x.2 ∉ p.drained := by
      have hnodup : (p.drained ++ s.freeing x.1).Nodup := by
        rw [hall]
        decide
      exact fun hdrained => (List.nodup_append.mp hnodup).2.2 _ hdrained _ hmem rfl
    refine ⟨p, hp, hnot, ?_⟩
    have hend : p.Ended := (h.running_or_ended hp).resolve_left fun hrun => hrun.status hup
    cases hfreed : p.freed with
    | false => rfl
    | true => exact absurd (hend.freed_iff.mp hfreed x.2) hnot

/-! ## What a run takes off the free list -/

/-- The handler that a step takes off the free list. -/
def takenOff (s : LoopState) : LoopEvent → List Handler
  | .drain => s.entry.head?.toList
  | .accept .. => []
  | .epollWait _ => []
  | .dispatch => []

/-- A run that has taken the handlers `taken` off the free list took none of them
twice, will not come to one of them again, and has freed a connection if and only
if it took all three of its handlers. -/
structure FreedWhenTaken (s : LoopState) (taken : List Handler) : Prop where
  once : taken.Nodup
  freed_iff : ∀ i p, s.conns[i]? = some p → (p.freed = true ↔ ∀ t, (i, t) ∈ taken)
  pending : ∀ x ∈ s.batch, handlerOf x ∉ taken
  listed : ∀ h ∈ s.entry, h ∉ taken

/-- What was taken off the free list is what the connections know as drained. -/
structure Taken (s : LoopState) (taken : List Handler) : Prop where
  once : taken.Nodup
  drained_iff : ∀ i p, s.conns[i]? = some p → ∀ t, t ∈ p.drained ↔ (i, t) ∈ taken
  indices : ∀ h ∈ taken, h.1 < s.conns.length

variable {taken : List Handler}

theorem LoopInv.freedWhenTaken (h : LoopInv s) (htaken : s.Taken taken) :
    s.FreedWhenTaken taken where
  once := htaken.once
  freed_iff := by
    intro i p hp
    rw [(h.teardownOnce.conns p (List.mem_of_getElem? hp)).freed_iff]
    exact forall_congr' (htaken.drained_iff i p hp)
  pending := by
    intro x hx hmem
    obtain ⟨p, hp, hnot, -⟩ := h.teardownOnce.pending x hx
    exact hnot ((htaken.drained_iff _ p hp _).mpr hmem)
  listed := by
    intro x hx hmem
    obtain ⟨p, hp, hnot, -⟩ := h.teardownOnce.listed x hx
    exact hnot ((htaken.drained_iff _ p hp _).mpr hmem)

theorem Taken.set (h : s.Taken taken) {i : ℕ} {p p' : ProxyConnection}
    (hp : s.conns[i]? = some p) (hsame : p'.drained = p.drained)
    (hs' : s'.conns = s.conns.set i p') : s'.Taken taken := by
  refine ⟨h.once, ?_, fun x hx => ?_⟩
  · intro j q hq t
    rw [hs'] at hq
    by_cases hij : i = j
    · subst hij
      rw [List.getElem?_set_self (List.getElem?_eq_some_iff.mp hp).1] at hq
      cases hq
      rw [hsame]
      exact h.drained_iff i p hp t
    · rw [List.getElem?_set_ne hij] at hq
      exact h.drained_iff j q hq t
  · rw [hs', List.length_set]
    exact h.indices x hx

/-- **Every step** takes what it drains off the free list, and nothing else. -/
theorem Taken.step {e : LoopEvent} (h : s.Taken taken) (hinv : LoopInv s)
    (hstep : s.step e = .ok s') : s'.Taken (taken ++ s.takenOff e) := by
  cases e with
  | accept heap clientFd clientType backendFd backendType =>
      cases hstep
      rw [takenOff, List.append_nil]
      refine ⟨h.once, ?_, fun x hx => ?_⟩
      · intro i q hq t
        simp only [List.getElem?_append] at hq
        split at hq
        · exact h.drained_iff i q hq t
        · rename_i hi
          -- the number of the new connection has not been used
          obtain ⟨-, rfl⟩ : i - s.conns.length = 0 ∧ ProxyConnection.newConnection heap clientFd
              clientType backendFd backendType = q := by
            simpa [List.getElem?_singleton] using hq
          exact iff_of_false List.not_mem_nil fun hmem => hi (h.indices _ hmem)
      · rw [List.length_append]
        exact Nat.lt_add_right 1 (h.indices x hx)
  | epollWait batch =>
      obtain ⟨-, -, -, rfl⟩ := step_epollWait hstep
      rw [takenOff, List.append_nil]
      exact ⟨h.once, h.drained_iff, h.indices⟩
  | dispatch =>
      obtain ⟨i, e, rest, p, p', hbatch, hp, hcall, rfl⟩ := step_dispatch hstep
      rw [takenOff, List.append_nil]
      refine h.set hp ?_ rfl
      rcases ProxyConnection.proxyEventsCallback_phase (hinv.running_or_ended hp)
        (hinv.next hbatch hp).2 hcall with ⟨hrun, hrun', -⟩ | ⟨-, rfl⟩ | ⟨-, rfl⟩
      · rw [hrun'.drained, hrun.drained]
      · rfl
      · rfl
  | drain =>
      obtain ⟨i, t, rest, p, hbatch, hentry, hp, rfl⟩ := step_drain hstep
      have hhead : s.takenOff .drain = [(i, t)] := by rw [takenOff, hentry]; rfl
      have hnew := (hinv.freedWhenTaken h).listed (i, t) (hentry ▸ List.mem_cons_self ..)
      rw [hhead]
      refine ⟨List.nodup_append.mpr ⟨h.once, List.pairwise_singleton _ _, ?_⟩, ?_, fun x hx => ?_⟩
      · rintro x hx y hy rfl
        exact hnew (List.mem_singleton.mp hy ▸ hx)
      · intro j q hq u
        rw [List.mem_append, List.mem_singleton, Prod.mk.injEq]
        by_cases hij : i = j
        · subst hij
          rw [List.getElem?_set_self (List.getElem?_eq_some_iff.mp hp).1] at hq
          cases hq
          rw [ProxyConnection.freeProxyObj_drained, List.mem_append, List.mem_singleton,
            h.drained_iff i p hp]
          simp
        · rw [List.getElem?_set_ne hij] at hq
          rw [h.drained_iff j q hq]
          simp [Ne.symm hij]
      · rw [List.length_set]
        rcases List.mem_append.mp hx with hx | hx
        · exact h.indices x hx
        · rw [List.mem_singleton.mp hx]
          exact (List.getElem?_eq_some_iff.mp hp).1

/-- **Teardown happens once, and nothing is used after it is freed**: in every
state of every run of the event loop. The proxy object of a connection is freed
when the run has taken all three of its handlers off the free list, and not
before. -/
theorem teardown_once (es : List LoopEvent) :
    Always (recorded step takenOff) (fun x => x.1.TeardownOnce ∧ x.1.FreedWhenTaken x.2)
      (init, []) es := by
  have hrun : Always (recorded step takenOff) (fun x => LoopInv x.1 ∧ x.1.Taken x.2)
      (init, []) es := by
    refine always_of_invariant ?_ ⟨loopInv_init, ?_⟩ es
    · rintro ⟨s, taken⟩ e ⟨s', taken'⟩ ⟨hinv, h⟩ hstep
      obtain ⟨hnext, rfl⟩ := recorded_ok_iff.mp hstep
      exact ⟨loopInv_step e hinv hnext, h.step hinv hnext⟩
    · exact ⟨List.nodup_nil, fun i p hp => absurd hp (by simp [init]),
        fun x hx => absurd hx List.not_mem_nil⟩
  exact hrun.mono fun x h => ⟨h.1.teardownOnce, h.1.freedWhenTaken h.2⟩

/-! ## Descriptors -/

/-- Taken out of the epoll set and closed, each of them once. -/
def ReleasedOnce (ops : List SysOp) : Prop := ops.count .epollDel = 1 ∧ ops.count .close = 1

/-- All three descriptors of every connection that has been freed are released. -/
def DescriptorsReleased (s : LoopState) : Prop :=
  ∀ p ∈ s.conns, p.freed = true → ∀ t, ReleasedOnce (p.handlerIo t)

/-- What is released instead: the two sockets are, and the timer is taken out of
the epoll set and stays open. -/
def TimerStaysOpen (s : LoopState) : Prop :=
  ∀ p ∈ s.conns, p.freed = true →
    ReleasedOnce p.client.params.io ∧ ReleasedOnce p.backend.params.io ∧
      p.timerIo.count .epollDel = 1 ∧ p.timerIo.count .close = 0

/-- The step does not drain the last handler of a connection. -/
def KeepsProxyObject (s : LoopState) : LoopEvent → Prop
  | .drain => ∀ h rest p, s.entry = h :: rest → s.conns[h.1]? = some p → p.refrenceCounter ≠ 1
  | _ => True

theorem LoopInv.timerStaysOpen (h : LoopInv s) : s.TimerStaysOpen := by
  intro p hp hfreed
  rcases h.conns p hp with hrun | hend
  · rw [hrun.freed] at hfreed
    cases hfreed
  · have hside : ∀ side, ReleasedOnce (p.base side).params.io := by
      intro side
      obtain ⟨haccounted, hclosed⟩ := hend.side side
      exact ⟨by rw [haccounted.removed, hclosed]; rfl, by rw [haccounted.closed, hclosed]; rfl⟩
    exact ⟨hside .client, hside .backend, hend.timer.1, hend.timer.2.1⟩

theorem LoopInv.descriptorsReleased_iff (h : LoopInv s) :
    s.DescriptorsReleased ↔ ∀ p ∈ s.conns, p.freed = false := by
  constructor
  · intro hall p hp
    cases hfreed : p.freed with
    | false => rfl
    | true =>
        have hclosed := (hall p hp hfreed .proxyTimerSock).2
        rw [ProxyConnection.handlerIo, (h.timerStaysOpen p hp hfreed).2.2.2] at hclosed
        cases hclosed
  · intro hnone p hp hfreed
    rw [hnone p hp] at hfreed
    cases hfreed

/-- **One step** frees a proxy object exactly when it drains a last handler. -/
theorem descriptorsReleased_step_iff {e : LoopEvent} (h : LoopInv s)
    (hs : s.DescriptorsReleased) (hstep : s.step e = .ok s') :
    s'.DescriptorsReleased ↔ s.KeepsProxyObject e := by
  rw [(loopInv_step e h hstep).descriptorsReleased_iff]
  rw [h.descriptorsReleased_iff] at hs
  cases e with
  | accept heap clientFd clientType backendFd backendType =>
      cases hstep
      refine iff_of_true ?_ trivial
      intro p hp
      rcases List.mem_append.mp hp with hp | hp
      · exact hs p hp
      · rw [List.mem_singleton.mp hp]
        rfl
  | epollWait batch =>
      obtain ⟨-, -, -, rfl⟩ := step_epollWait hstep
      exact iff_of_true hs trivial
  | dispatch =>
      obtain ⟨i, e, rest, p, p', hbatch, hp, hcall, rfl⟩ := step_dispatch hstep
      have hfreed : p'.freed = false := by
        rcases ProxyConnection.proxyEventsCallback_phase (h.running_or_ended hp)
          (h.next hbatch hp).2 hcall with ⟨-, hrun', -⟩ | ⟨hrun, rfl⟩ | ⟨-, rfl⟩
        · exact hrun'.freed
        · exact hrun.freed
        · exact hs p' (List.mem_of_getElem? hp)
      exact iff_of_true ((forall_conns_set_iff hp hs).mpr hfreed) trivial
  | drain =>
      obtain ⟨i, t, rest, p, hbatch, hentry, hp, rfl⟩ := step_drain hstep
      have hfreed : (p.freeProxyObj t).freed = false ↔ p.refrenceCounter ≠ 1 := by
        have hold := hs p (List.mem_of_getElem? hp)
        unfold ProxyConnection.freeProxyObj
        simp only
        split
        · exact iff_of_true hold (by omega)
        · exact iff_of_false (by simp) (by omega)
      refine (forall_conns_set_iff hp hs).trans (hfreed.trans ?_)
      constructor
      · intro hne h' rest' q hentry' hq
        rw [hentry] at hentry'
        cases hentry'
        rw [hp] at hq
        cases hq
        exact hne
      · exact fun hkeep => hkeep _ _ _ hentry hp

/-- **Descriptors, exactly.** All three descriptors of every freed connection are
released in all states of a run if and only if the run frees none: a freed
connection has both sockets released once, and a timer descriptor that is out of
the epoll set and still open. -/
theorem descriptors_released_iff (es : List LoopEvent) :
    (Always step DescriptorsReleased init es ↔ EachStep step KeepsProxyObject init es) ∧
      Always step TimerStaysOpen init es := by
  refine ⟨?_, ?_⟩
  · refine always_iff_eachStep (I := LoopInv) ?_ ?_ loopInv_init ?_ es
    · intro s e s' h hs hstep
      exact descriptorsReleased_step_iff h hs hstep
    · intro s e s' h _ hstep _
      exact loopInv_step e h hstep
    · exact fun p hp => absurd hp List.not_mem_nil
  · exact (always_of_invariant (fun _ e _ h hstep => loopInv_step e h hstep)
      loopInv_init es).mono fun _ h => h.timerStaysOpen

def idleEvent (t : SockType) (events : UInt32) : SockEvent where
  sockType := t
  events := events
  env :=
    { read := ⟨.wouldBlock, fun _ => ⟨0, true, ⟨.none, .empty, true⟩, ⟨[], .none, .empty⟩⟩⟩
      relay := ⟨true, ⟨.none, .empty, true⟩, [], .wouldBlock⟩
      write := ⟨true, ⟨.none, .empty, true⟩, [], .wouldBlock⟩ }

/-- The shortest life of a connection: one event of the client, two expiries,
and the three handlers drained. -/
def shortestLife : List LoopEvent :=
  [.accept (fun _ _ _ => 0) 4 .sslConn 5 .sslConn,
    .epollWait [(0, idleEvent .clientSock epollOut)], .dispatch,
    .epollWait [(0, idleEvent .proxyTimerSock epollIn)], .dispatch,
    .epollWait [(0, idleEvent .proxyTimerSock epollIn)], .dispatch,
    .drain, .drain, .drain]

/-- At its end the timer descriptor is still open. -/
theorem timer_descriptor_leaks :
    ¬ ∀ es : List LoopEvent, Always step DescriptorsReleased init es := by
  intro h
  obtain ⟨s, p, hrun, hp, hfreed, hopen⟩ : ∃ s p, run step init shortestLife = .ok s ∧
      p ∈ s.conns ∧ p.freed = true ∧ p.timerIo.count .close = 0 :=
    ⟨_, _, rfl, List.Mem.head _, rfl, rfl⟩
  have hclosed := ((h shortestLife).last hrun p hp hfreed .proxyTimerSock).2
  rw [ProxyConnection.handlerIo, hopen] at hclosed
  cases hclosed

end LoopState
end Zroxy
