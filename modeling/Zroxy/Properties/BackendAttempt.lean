import Zroxy.Connections.HandleClient

/-!
# All or nothing, when a client is connected to its backend

The loop over the addresses does its part whatever fails along the list: it ends
with the first socket that connected and no other (`connectBackend_spec`). What
follows it does not ask how it ended. `allOrNothing_iff`: the whole call leaves
either a connected pair or nothing exactly when some address connects.
-/

namespace Zroxy

open OffsetMemory Runs

/-- The socket of the first address that connects. -/
def firstConnected (addrs : List Attempt) : Option ℤ :=
  addrs.findSome? fun a => if a.connects then a.socket else none

/-- `socket` returns descriptors that are not open: those tried before are closed
by then. -/
def SocketsFresh (openFds : Finset ℤ) : List Attempt → Prop
  | [] => True
  | a :: addrs =>
      match a.socket with
      | none => SocketsFresh openFds addrs
      | some fd => fd ∉ openFds ∧ (a.connects = false → SocketsFresh openFds addrs)

/-- **The loop over the addresses** ends with one socket more than before, the
first that connected, or with none. -/
theorem connectBackend_spec {d : Descriptors} {addrs : List Attempt} (fd : ℤ)
    (h : SocketsFresh d.openFds addrs) :
    match firstConnected addrs with
    | some b => connectBackend addrs fd d = (d.opened b, b, true) ∧ b ∉ d.openFds
    | none => ∃ fd', connectBackend addrs fd d = (d, fd', false) := by
  induction addrs generalizing fd with
  | nil => exact ⟨fd, rfl⟩
  | cons a addrs ih =>
      obtain ⟨socket, connects⟩ := a
      cases socket with
      | none =>
          have hskip : firstConnected (⟨none, connects⟩ :: addrs) = firstConnected addrs := by
            cases connects <;> rfl
          rw [hskip]
          exact ih (-1) h
      | some s =>
          obtain ⟨hfresh, hrest⟩ := h
          cases connects with
          | true => exact ⟨rfl, hfresh⟩
          | false =>
              have hclosed : connectBackend (⟨some s, false⟩ :: addrs) fd d =
                  connectBackend addrs s d := by
                show connectBackend addrs s ((d.opened s).close s) = _
                rw [Descriptors.close_opened hfresh]
              rw [hclosed]
              exact ih s (hrest rfl)

/-- A call on the addresses given leaves one backend socket open, the first that
connected, and makes the connection on it; or, when none connects, the loop
leaves every descriptor as it was, no connection is made and no handler
registered, and the client's socket is closed. Where the call ends the process,
this is about the process as it is then. -/
def AllOrNothing (heap : Side → ℕ → Mem Byte) (clientSock : ℤ) (addrs : List Attempt)
    (uninitialised : ℤ) (timerFd : Option ℤ) (p : Process) : Prop :=
  let p' := Process.afterCall
    (handleClientConnection heap clientSock ⟨some addrs, uninitialised, timerFd⟩ p)
  let d := p.table.descriptors
  match firstConnected addrs with
  | some b =>
      b ∉ d.openFds ∧ connectBackend addrs uninitialised d = (d.opened b, b, true) ∧
        p'.conns.map TimedConnection.proxy =
          p.conns.map TimedConnection.proxy ++ [.newConnection heap clientSock .sslConn b .sslConn]
  | none =>
      (connectBackend addrs uninitialised d).1 = d ∧ p'.conns = p.conns ∧
        p'.table.descriptors.epollSet ⊆ d.epollSet ∧ clientSock ∉ p'.table.descriptors.openFds

theorem firstConnected_isSome_iff (addrs : List Attempt) :
    (∃ b, firstConnected addrs = some b) ↔
      ∃ a ∈ addrs, a.connects = true ∧ a.socket.isSome = true := by
  unfold firstConnected
  rw [← Option.isSome_iff_exists, List.findSome?_isSome_iff]
  refine exists_congr fun a => and_congr_right fun _ => ?_
  split
  · simp [*]
  · simp [*]

variable {heap : Side → ℕ → Mem Byte} {clientSock : ℤ} {addrs : List Attempt}
  {uninitialised : ℤ} {timerFd : Option ℤ} {p : Process}

theorem afterCall_conns {d : Descriptors} {b : ℤ} {connected : Bool}
    (h : connectBackend addrs uninitialised p.table.descriptors = (d, b, connected)) :
    (Process.afterCall (handleClientConnection heap clientSock ⟨some addrs, uninitialised, timerFd⟩
        p)).conns =
      p.conns ++ [⟨.newConnection heap clientSock .sslConn b .sslConn, timerFd.getD (-1)⟩] := by
  simp only [handleClientConnection, h]
  cases timerFd <;> rfl

theorem afterCall_openFds {d : Descriptors} {b : ℤ} {connected : Bool}
    (h : connectBackend addrs uninitialised p.table.descriptors = (d, b, connected)) :
    d.openFds ⊆ (Process.afterCall (handleClientConnection heap clientSock
      ⟨some addrs, uninitialised, timerFd⟩ p)).table.descriptors.openFds := by
  simp only [handleClientConnection, h]
  cases timerFd with
  | none =>
      simp only [Process.afterCall, HandlerTable.addHandlerToEpoll_openFds]
      exact Finset.Subset.refl _
  | some t =>
      simp only [Process.afterCall, HandlerTable.addHandlerToEpoll_openFds, HandlerTable.opened,
        Descriptors.opened]
      exact Finset.subset_insert _ _

/-- **The client's socket is never closed** by the call. -/
theorem client_stays_open (hclient : clientSock ∈ p.table.descriptors.openFds)
    (hfresh : SocketsFresh p.table.descriptors.openFds addrs) :
    clientSock ∈ (Process.afterCall (handleClientConnection heap clientSock
      ⟨some addrs, uninitialised, timerFd⟩ p)).table.descriptors.openFds := by
  have hloop := connectBackend_spec uninitialised hfresh
  cases hfirst : firstConnected addrs with
  | some b =>
      rw [hfirst] at hloop
      exact afterCall_openFds hloop.1 (Finset.mem_insert_of_mem hclient)
  | none =>
      rw [hfirst] at hloop
      obtain ⟨fd, hend⟩ := hloop
      exact afterCall_openFds hend hclient

/-- **All or nothing, exactly.** Whatever `socket` and `connect` do along the
list, and with or without a timer, the call is all or nothing if and only if some
address connects. -/
theorem allOrNothing_iff (heap : Side → ℕ → Mem Byte) (clientSock : ℤ) (addrs : List Attempt)
    (uninitialised : ℤ) (timerFd : Option ℤ) (p : Process)
    (hfresh : SocketsFresh p.table.descriptors.openFds addrs) :
    AllOrNothing heap clientSock addrs uninitialised timerFd p ↔
      ∃ a ∈ addrs, a.connects = true ∧ a.socket.isSome = true := by
  have hloop := connectBackend_spec uninitialised hfresh
  rw [← firstConnected_isSome_iff]
  unfold AllOrNothing
  cases hfirst : firstConnected addrs with
  | some b =>
      rw [hfirst] at hloop
      obtain ⟨hend, hnew⟩ := hloop
      refine iff_of_true ⟨hnew, hend, ?_⟩ ⟨b, rfl⟩
      rw [afterCall_conns hend, List.map_append, List.map_singleton]
  | none =>
      rw [hfirst] at hloop
      obtain ⟨fd, hend⟩ := hloop
      refine iff_of_false ?_ (by simp)
      rintro ⟨-, hconns, -⟩
      -- a connection is made on whatever the loop has left in the variable
      rw [afterCall_conns hend] at hconns
      have hlength := congrArg List.length hconns
      rw [List.length_append, List.length_singleton] at hlength
      omega

def oneClient : Process where
  table := ⟨⟨{0, 1, 2, 3, 4, 5}, ∅, Finset.empty_subset _⟩, fun _ => .listener⟩
  conns := []

/-- No socket can be had for the first address, the second one connects, and
there is no timer. -/
theorem allOrNothing_secondAddress :
    AllOrNothing (fun _ _ _ => 0) 5 [⟨none, false⟩, ⟨some 6, true⟩] 0 none oneClient := by
  apply (allOrNothing_iff _ _ _ _ _ _ _).mpr
  · exact ⟨⟨some 6, true⟩, by simp, rfl, rfl⟩
  · exact ⟨by decide, nofun⟩

/-- One address that refuses: the socket 6 is closed, a connection is made on it
all the same, and the client stays open. -/
theorem exhausted_list_is_connected :
    ¬ ∀ (heap : Side → ℕ → Mem Byte) (clientSock : ℤ) (addrs : List Attempt)
        (uninitialised : ℤ) (timerFd : Option ℤ) (p : Process),
      SocketsFresh p.table.descriptors.openFds addrs →
        AllOrNothing heap clientSock addrs uninitialised timerFd p := by
  intro h
  have hfresh : SocketsFresh oneClient.table.descriptors.openFds [⟨some 6, false⟩] :=
    ⟨by decide, fun _ => trivial⟩
  have hopen : (5 : ℤ) ∈ oneClient.table.descriptors.openFds := by decide
  obtain ⟨-, -, -, hclosed⟩ := h (fun _ _ _ => 0) 5 [⟨some 6, false⟩] 0 (some 6) oneClient hfresh
  exact hclosed (client_stays_open hopen hfresh)

end Zroxy
