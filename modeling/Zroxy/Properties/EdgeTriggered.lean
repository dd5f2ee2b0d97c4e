import Zroxy.Events.ConnEffects

/-!
# Reading from an edge-triggered socket

Client and backend sockets are registered with `EPOLLET`: the kernel owes an
`EPOLLIN` edge when bytes arrive, and owes it once. A handler that leaves bytes
in the socket will not be called for them again. The accept loop of the same
program goes on until `EAGAIN`; the four read handlers receive once.

`SocketState` puts a connection of either side and type in front of the part of
the kernel it talks to. `nothing_stranded_run_iff`: no run strands bytes exactly
when every edge is handled with at most `READ_BUF_SIZE` bytes waiting, or with
more bytes having arrived since the edge was handed out.
-/

namespace Zroxy

open OffsetMemory Runs

structure SocketState where
  conn : Conn
  /-- Bytes received by the kernel and not read yet. -/
  backlog : List Byte
  /-- The kernel owes an `EPOLLIN` edge. -/
  edgeOwed : Bool
  /-- `epoll_wait` has handed the edge out, and its handler has not run yet. -/
  edgeInHand : Bool

/-- What `recv` answers when no byte is waiting. -/
inductive RecvEnd where
  | endOfStream
  | wouldBlock
  | error

inductive SocketEvent where
  | arrive (bytes : List Byte)
  | epollWait
  | handle (rounds : ℕ → Round) (atEnd : RecvEnd)

/-- The answer to the first `recv`. -/
def firstRecv (backlog : List Byte) (atEnd : RecvEnd) : RecvResult :=
  if h : 0 < (backlog.take readBufSize).length then
    .received ⟨backlog.take readBufSize, h, List.length_take_le _ _⟩
  else
    match atEnd with
    | .endOfStream => .endOfStream
    | .wouldBlock => .wouldBlock
    | .error => .error

namespace SocketState

/-- One event. Each `recv` the handler makes takes up to `READ_BUF_SIZE` of the
bytes waiting. -/
def step (side : Side) (s : SocketState) : SocketEvent → Except Empty SocketState
  | .arrive bytes =>
      .ok { s with backlog := s.backlog ++ bytes, edgeOwed := s.edgeOwed || !bytes.isEmpty }
  | .epollWait =>
      if s.edgeOwed then .ok { s with edgeOwed := false, edgeInHand := true } else .ok s
  | .handle rounds atEnd =>
      if s.edgeInHand then
        let conn := (s.conn.onRead side ⟨firstRecv s.backlog atEnd, rounds⟩).1
        let calls := conn.io.count .recv - s.conn.io.count .recv
        .ok { s with
          conn := conn
          backlog := s.backlog.drop (readBufSize * calls)
          edgeInHand := false }
      else .ok s

/-- A connection as it is registered, with nothing received yet. -/
def fresh (conn : Conn) : SocketState := ⟨conn, [], false, false⟩

/-- Unread bytes are still announced: by an edge the kernel owes, or by one that
is about to be handled. -/
def NothingStranded (s : SocketState) : Prop :=
  s.backlog ≠ [] → s.edgeOwed = true ∨ s.edgeInHand = true

/-- An edge is handled with no more bytes waiting than one `recv` takes, or with
the next edge owed already. -/
def HandledInTime (s : SocketState) : SocketEvent → Prop
  | .handle _ _ => s.edgeInHand = true → s.backlog.length ≤ readBufSize ∨ s.edgeOwed = true
  | _ => True

/-- Handling an edge leaves what one `recv` does not take. -/
theorem step_handle {side : Side} {s s' : SocketState} {rounds : ℕ → Round} {atEnd : RecvEnd}
    (hedge : s.edgeInHand = true) (h : s.step side (.handle rounds atEnd) = .ok s') :
    s'.backlog = s.backlog.drop readBufSize ∧ s'.edgeOwed = s.edgeOwed ∧
      s'.edgeInHand = false := by
  simp only [step, hedge, if_true] at h
  cases h
  refine ⟨?_, rfl, rfl⟩
  simp [(Conn.onRead_frame s.conn side _).1]

/-- **One event** strands bytes exactly when it handles an edge too late. -/
theorem nothingStranded_step_iff {side : Side} {s s' : SocketState} {e : SocketEvent}
    (hs : s.NothingStranded) (h : s.step side e = .ok s') :
    s'.NothingStranded ↔ s.HandledInTime e := by
  cases e with
  | arrive bytes =>
      cases h
      refine iff_of_true ?_ trivial
      intro hne
      by_cases hbytes : bytes = []
      · subst hbytes
        simp only [List.append_nil] at hne
        simpa using hs hne
      · exact Or.inl (by simp [hbytes])
  | epollWait =>
      simp only [step] at h
      split at h <;> cases h
      · exact iff_of_true (fun _ => Or.inr rfl) trivial
      · exact iff_of_true hs trivial
  | handle rounds atEnd =>
      cases hedge : s.edgeInHand with
      | false =>
          simp only [step, hedge, Bool.false_eq_true, if_false] at h
          cases h
          exact iff_of_true hs (fun hcon => by rw [hedge] at hcon; cases hcon)
      | true =>
          -- what is left is stranded unless an edge is owed for it
          obtain ⟨hleft, howed, hdone⟩ := step_handle hedge h
          unfold NothingStranded HandledInTime
          rw [hleft, howed, hdone, ← List.drop_eq_nil_iff]
          constructor
          · intro hafter _
            by_cases hnil : s.backlog.drop readBufSize = []
            · exact Or.inl hnil
            · simpa using Or.inr (hafter hnil)
          · intro htime hne
            rcases htime hedge with hnil | howed'
            · exact absurd hnil hne
            · exact Or.inl howed'

/-- **Edge-triggered reading, exactly.** For each of the four read handlers, no
state of a run has unread bytes without an edge to come if and only if every
edge of the run is handled in time. -/
theorem nothing_stranded_run_iff (side : Side) (conn : Conn) (es : List SocketEvent) :
    Always (step side) NothingStranded (fresh conn) es ↔
      EachStep (step side) HandledInTime (fresh conn) es := by
  refine always_iff_eachStep (I := fun _ => True) ?_ ?_ trivial ?_ es
  · intro s e s' _ hs h
    exact nothingStranded_step_iff hs h
  · exact fun _ _ _ _ _ _ _ => trivial
  · exact fun hne => absurd rfl hne

def longMessage : List Byte := List.replicate (readBufSize + 1) 65

/-- OpenSSL accepts none of it. -/
def idleRounds : ℕ → Round := fun _ => ⟨0, false, ⟨.none, .empty, false⟩, ⟨[], .none, .empty⟩⟩

def oneEdge : List SocketEvent :=
  [.arrive longMessage, .epollWait, .handle idleRounds .wouldBlock]

def reportedMessage : SocketState :=
  ⟨.makeWithType (fun _ _ => 0) 4 .sslConn, longMessage, false, true⟩

/-- One byte of the message is left, and no edge is owed for it. -/
theorem long_message_is_stranded :
    ¬ ∀ (side : Side) (conn : Conn) (es : List SocketEvent),
      Always (step side) NothingStranded (fresh conn) es := by
  intro h
  have hrun := h .client (.makeWithType (fun _ _ => 0) 4 .sslConn) oneEdge
  have hlast : ∀ s', reportedMessage.step .client (.handle idleRounds .wouldBlock) = .ok s' →
      s'.NothingStranded := fun s' hs' => ((hrun.2 _ rfl).2 reportedMessage rfl).2 s' hs'
  obtain ⟨s', hs'⟩ :
      ∃ s', reportedMessage.step .client (.handle idleRounds .wouldBlock) = .ok s' := ⟨_, rfl⟩
  obtain ⟨hleft, howed, hdone⟩ := step_handle rfl hs'
  have hne : s'.backlog ≠ [] := by
    rw [hleft]
    simp [reportedMessage, longMessage]
  rcases hlast s' hs' hne with hcon | hcon
  · rw [howed] at hcon
    cases hcon
  · rw [hdone] at hcon
    cases hcon

end SocketState
end Zroxy
