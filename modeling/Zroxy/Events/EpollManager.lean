import Zroxy.Events.ProxyEffects

/-!
# The event loop (`events/io/epoll_manager.c`)

`zxy_event_loop` waits for a batch of events, calls the callback of each in
turn, and then frees the handlers that were put on the list `entry` meanwhile.
The loop is a machine over any number of proxy connections, numbered in the
order in which they were made; a handler is such a number and a `sock_type`.

The kernel reports a descriptor only while it is in the epoll set, and at most
once in a batch. A new connection is made by the callback of the listening
socket, which may be called anywhere in a batch.
-/

namespace Zroxy

open OffsetMemory Runs

/-- Whether a descriptor is in the epoll set after a system call. Closing takes
it out as well. -/
def SysOp.registers (registered : Bool) : SysOp → Bool
  | .epollAdd => true
  | .epollDel => false
  | .close => false
  | _ => registered

/-- Whether a descriptor is in the epoll set after all of these. -/
def registeredAfter (ops : List SysOp) : Bool := ops.foldl SysOp.registers false

/-- The system calls on the descriptor of a handler. -/
def ProxyConnection.handlerIo (p : ProxyConnection) : SockType → List SysOp
  | .clientSock => p.client.params.io
  | .backendSock => p.backend.params.io
  | .proxyTimerSock => p.timerIo

/-- A handler: the number of its connection, and its type. -/
abbrev Handler := ℕ × SockType

/-- The loop between two steps: the connections made so far, what is left of the
batch, and the free list, its head first. -/
structure LoopState where
  conns : List ProxyConnection
  batch : List (ℕ × SockEvent)
  entry : List Handler

inductive LoopEvent where
  | accept (heap : Side → ℕ → Mem Byte) (clientFd : ℤ) (clientType : ConnType)
      (backendFd : ℤ) (backendType : ConnType)
  | epollWait (batch : List (ℕ × SockEvent))
  | dispatch
  | drain

/-- Why a step is not taken: the loop is somewhere else, or a callback does not
return. -/
inductive LoopFault where
  | notEnabled
  | callback (fault : Fault)

namespace LoopState

def init : LoopState := ⟨[], [], []⟩

def handlerOf (x : ℕ × SockEvent) : Handler := (x.1, x.2.sockType)

/-- The descriptor of a handler is in the epoll set. -/
def registered (s : LoopState) (h : Handler) : Bool :=
  match s.conns[h.1]? with
  | none => false
  | some p => registeredAfter (p.handlerIo h.2)

/-- What `epoll_wait` may report. -/
def Reportable (s : LoopState) (batch : List (ℕ × SockEvent)) : Prop :=
  (batch.map handlerOf).Nodup ∧ ∀ x ∈ batch, s.registered (handlerOf x) = true

instance (s : LoopState) (batch : List (ℕ × SockEvent)) : Decidable (s.Reportable batch) := by
  unfold Reportable
  infer_instance

/-- `handler->callback(...)` for the next event of the batch. The handlers that
the callback releases are pushed on the free list one after the other. -/
def dispatch (s : LoopState) : Except LoopFault LoopState :=
  match s.batch with
  | [] => .error .notEnabled
  | (i, e) :: rest =>
      match s.conns[i]? with
      | none => .error .notEnabled
      | some p =>
          match p.proxyEventsCallback e with
          | .error fault => .error (.callback fault)
          | .ok p' => .ok {
              conns := s.conns.set i p'
              batch := rest
              entry := ((p'.queued.drop p.queued.length).reverse.map fun h => (i, h)) ++ s.entry }

/-- `handler->free_params(handler->params)` for the head of the free list, once
the batch is done. -/
def drain (s : LoopState) : Except LoopFault LoopState :=
  match s.batch, s.entry with
  | [], (i, h) :: rest =>
      match s.conns[i]? with
      | none => .error .notEnabled
      | some p => .ok { s with conns := s.conns.set i (p.freeProxyObj h), entry := rest }
  | _, _ => .error .notEnabled

/-- `zxy_event_loop`, step by step. -/
def step (s : LoopState) : LoopEvent → Except LoopFault LoopState
  | .accept heap clientFd clientType backendFd backendType =>
      .ok { s with conns := s.conns ++
        [.newConnection heap clientFd clientType backendFd backendType] }
  | .epollWait batch =>
      if s.batch.isEmpty && s.entry.isEmpty && decide (s.Reportable batch) then
        .ok { s with batch := batch }
      else .error .notEnabled
  | .dispatch => s.dispatch
  | .drain => s.drain

variable {s s' : LoopState}

theorem forall_conns_set_iff {conns : List ProxyConnection} {Q : ProxyConnection → Prop} {i : ℕ}
    {p p' : ProxyConnection} (hp : conns[i]? = some p) (h : ∀ q ∈ conns, Q q) :
    (∀ q ∈ conns.set i p', Q q) ↔ Q p' := by
  have hi : i < conns.length := (List.getElem?_eq_some_iff.mp hp).1
  constructor
  · intro hall
    exact hall p' (List.mem_of_getElem? (List.getElem?_set_self hi))
  · intro hone q hq
    rcases List.mem_or_eq_of_mem_set hq with hq | rfl
    · exact h q hq
    · exact hone

/-! ## What each step does -/

theorem step_epollWait {batch : List (ℕ × SockEvent)} (h : s.step (.epollWait batch) = .ok s') :
    s.batch = [] ∧ s.entry = [] ∧ s.Reportable batch ∧ s' = { s with batch := batch } := by
  simp only [step] at h
  split at h
  · rename_i hcond
    simp only [Bool.and_eq_true, List.isEmpty_iff, decide_eq_true_eq] at hcond
    cases h
    exact ⟨hcond.1.1, hcond.1.2, hcond.2, rfl⟩
  · cases h

theorem step_dispatch (h : s.step .dispatch = .ok s') :
    ∃ i e rest p p', s.batch = (i, e) :: rest ∧ s.conns[i]? = some p ∧
      p.proxyEventsCallback e = .ok p' ∧
      s' = ⟨s.conns.set i p', rest,
        ((p'.queued.drop p.queued.length).reverse.map fun h => (i, h)) ++ s.entry⟩ := by
  simp only [step, dispatch] at h
  split at h
  · cases h
  · rename_i i e rest hbatch
    split at h
    · cases h
    · rename_i p hp
      split at h
      · cases h
      · rename_i p' hp'
        cases h
        exact ⟨i, e, rest, p, p', hbatch, hp, hp', rfl⟩

theorem step_drain (h : s.step .drain = .ok s') :
    ∃ i t rest p, s.batch = [] ∧ s.entry = (i, t) :: rest ∧ s.conns[i]? = some p ∧
      s' = ⟨s.conns.set i (p.freeProxyObj t), [], rest⟩ := by
  simp only [step, drain] at h
  split at h
  · rename_i i t rest hbatch hentry
    split at h
    · cases h
    · rename_i p hp
      cases h
      exact ⟨i, t, rest, p, hbatch, hentry, hp, by rw [hbatch]⟩
  · cases h

end LoopState
end Zroxy
