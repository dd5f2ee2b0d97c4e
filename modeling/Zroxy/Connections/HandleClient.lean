import Mathlib.Data.Finset.Basic
import Zroxy.Events.EpollManager
import Zroxy.Events.SocketNumbers

/-!
# Connecting a client to its backend (`connections/handle_client.c`)

`zxy_handle_client_connection` tries the addresses of the backend one after the
other, and sets up a proxy connection between the client's socket and the one
that connected. The kernel is an input: what `getaddrinfo` and `timerfd_create`
return, and for each address what `socket` and `connect` do.

The function works on the descriptors of the process, on the handlers in the
epoll set and on the connections. That only open descriptors are in the epoll set
is a field of `Descriptors`.
-/

namespace Zroxy

open OffsetMemory Runs

/-- The open descriptors, and those of them in the epoll set. -/
@[ext]
structure Descriptors where
  openFds : Finset ℤ
  epollSet : Finset ℤ
  epoll_open : epollSet ⊆ openFds

namespace Descriptors

variable (d : Descriptors)

/-- The kernel hands out `fd`. -/
def opened (fd : ℤ) : Descriptors where
  openFds := insert fd d.openFds
  epollSet := d.epollSet
  epoll_open := d.epoll_open.trans (Finset.subset_insert fd d.openFds)

/-- `close`, which takes a descriptor out of the epoll set as well. -/
def close (fd : ℤ) : Descriptors where
  openFds := d.openFds.erase fd
  epollSet := d.epollSet.erase fd
  epoll_open := Finset.erase_subset_erase fd d.epoll_open

/-- `zxy_add_handler_to_epoll`: `epoll_ctl` fails on a descriptor that is not
open, and that is logged and forgotten. -/
def addHandlerToEpoll (fd : ℤ) : Descriptors :=
  if h : fd ∈ d.openFds then
    { d with
      epollSet := insert fd d.epollSet
      epoll_open := Finset.insert_subset h d.epoll_open }
  else d

/-- `zxy_remove_fd_from_epoll`, which logs and forgets a failure as well. -/
def removeFdFromEpoll (fd : ℤ) : Descriptors :=
  { d with
    epollSet := d.epollSet.erase fd
    epoll_open := (Finset.erase_subset fd d.epollSet).trans d.epoll_open }

variable {d}

theorem close_opened {fd : ℤ} (h : fd ∉ d.openFds) : (d.opened fd).close fd = d := by
  ext x
  · show x ∈ (insert fd d.openFds).erase fd ↔ x ∈ d.openFds
    rw [Finset.erase_insert h]
  · show x ∈ d.epollSet.erase fd ↔ x ∈ d.epollSet
    rw [Finset.erase_eq_of_notMem fun hmem => h (d.epoll_open hmem)]

@[simp] theorem addHandlerToEpoll_openFds (fd : ℤ) :
    (d.addHandlerToEpoll fd).openFds = d.openFds := by
  unfold addHandlerToEpoll
  split <;> rfl

end Descriptors

/-! ## Descriptors and handlers -/

/-- What `event.data.ptr` points to: the handler of the listening socket, or one
of the three of a connection. -/
inductive HandlerPtr where
  | listener
  | proxy (h : Handler)
deriving DecidableEq

/-- The descriptors, and `event.data.ptr` of those in the epoll set. -/
structure HandlerTable where
  descriptors : Descriptors
  ptr : ℤ → HandlerPtr

namespace HandlerTable

variable (t : HandlerTable)

/-- The handler that an event on `fd` is delivered to. -/
def lookup (fd : ℤ) : Option HandlerPtr :=
  if fd ∈ t.descriptors.epollSet then some (t.ptr fd) else none

def opened (fd : ℤ) : HandlerTable := { t with descriptors := t.descriptors.opened fd }

/-- `close`. -/
def close (fd : ℤ) : HandlerTable := { t with descriptors := t.descriptors.close fd }

/-- `zxy_remove_fd_from_epoll`. -/
def removeFdFromEpoll (fd : ℤ) : HandlerTable :=
  { t with descriptors := t.descriptors.removeFdFromEpoll fd }

/-- `zxy_add_handler_to_epoll`. A descriptor that is in the set already keeps the
handler it has. -/
def addHandlerToEpoll (fd : ℤ) (h : HandlerPtr) : HandlerTable where
  descriptors := t.descriptors.addHandlerToEpoll fd
  ptr :=
    if fd ∈ t.descriptors.openFds ∧ fd ∉ t.descriptors.epollSet then Function.update t.ptr fd h
    else t.ptr

@[simp] theorem addHandlerToEpoll_openFds (t : HandlerTable) (fd : ℤ) (h : HandlerPtr) :
    (t.addHandlerToEpoll fd h).descriptors.openFds = t.descriptors.openFds :=
  Descriptors.addHandlerToEpoll_openFds fd

/-- What a system call that a callback makes on `fd` does to the table. The
callbacks add nothing to the epoll set. -/
def sysOp (fd : ℤ) : SysOp → HandlerTable
  | .epollDel => t.removeFdFromEpoll fd
  | .close => t.close fd
  | _ => t

def sysOps (fd : ℤ) (ops : List SysOp) : HandlerTable :=
  ops.foldl (fun t op => t.sysOp fd op) t

end HandlerTable

/-! ## Connections -/

/-- A proxy connection, and `sock_fd` of its timer handler. -/
structure TimedConnection where
  proxy : ProxyConnection
  timerFd : ℤ

namespace TimedConnection

/-- The descriptor of a handler: `sock_fd` of the socket's connection, or of the
timer handler. -/
def sockFd (c : TimedConnection) : SockType → ℤ
  | .clientSock => c.proxy.client.params.sockFd
  | .backendSock => c.proxy.backend.params.sockFd
  | .proxyTimerSock => c.timerFd

/-- The system calls on the descriptor of a handler since the connection was as
it is here. -/
def callsSince (c : TimedConnection) (p : ProxyConnection) (h : SockType) : List SysOp :=
  (p.handlerIo h).drop (c.proxy.handlerIo h).length

/-- What a callback that leaves `p` has done to the table, in the order in which
`zxy_handle_timer_up_events` and `zxy_free_timer_handler` do it. No other
callback takes anything out of the table but its own descriptor. -/
def afterCallback (c : TimedConnection) (p : ProxyConnection) (t : HandlerTable) :
    HandlerTable :=
  let t := t.sysOps (c.sockFd .backendSock) (c.callsSince p .backendSock)
  let t := t.sysOps (c.sockFd .clientSock) (c.callsSince p .clientSock)
  t.sysOps (c.sockFd .proxyTimerSock) (c.callsSince p .proxyTimerSock)

end TimedConnection

/-! ## One client -/

/-- What happens to one resolved address: `socket` returns a descriptor or fails,
and `connect` on that descriptor succeeds or fails. -/
structure Attempt where
  socket : Option ℤ
  connects : Bool

/-- The loop over the addresses: the descriptors after it, `backend_socket_fd`,
and whether the list was left before its end. -/
def connectBackend : List Attempt → ℤ → Descriptors → Descriptors × ℤ × Bool
  | [], backendSocketFd, d => (d, backendSocketFd, false)
  | a :: addrs, _, d =>
      match a.socket with
      | none => connectBackend addrs (-1) d
      | some fd =>
          if a.connects then (d.opened fd, fd, true)
          else connectBackend addrs fd ((d.opened fd).close fd)

/-- What the kernel does during one call. `uninitialised` is what the variable
`backend_socket_fd` holds before anything is assigned to it. -/
structure ClientEnv where
  addrs : Option (List Attempt)
  uninitialised : ℤ
  timerFd : Option ℤ

structure Process where
  table : HandlerTable
  conns : List TimedConnection

/-- `zxy_handle_client_connection`. Where it ends the process, the error is the
process with what the call has done so far: without a timer the connection has
been made, and two of its handlers. -/
def handleClientConnection (heap : Side → ℕ → Mem Byte) (clientSock : ℤ) (env : ClientEnv)
    (p : Process) : Except Process Process :=
  match env.addrs with
  | none => .error p
  | some addrs =>
      -- that the list was exhausted is printed, and makes no other difference
      let (d, backendSocketFd, _) := connectBackend addrs env.uninitialised p.table.descriptors
      let proxyObj := .newConnection heap clientSock .sslConn backendSocketFd .sslConn
      let i := p.conns.length
      let t : HandlerTable := { p.table with descriptors := d }
      let t := t.addHandlerToEpoll clientSock (.proxy (i, .clientSock))
      let t := t.addHandlerToEpoll backendSocketFd (.proxy (i, .backendSock))
      match env.timerFd with
      -- `timerfd_create` has returned -1
      | none => .error { table := t, conns := p.conns ++ [⟨proxyObj, -1⟩] }
      | some timerFd => .ok {
          table := (t.opened timerFd).addHandlerToEpoll timerFd (.proxy (i, .proxyTimerSock))
          conns := p.conns ++ [⟨proxyObj, timerFd⟩] }

/-- The process when the call returns, or when it ends it. -/
def Process.afterCall : Except Process Process → Process
  | .ok p => p
  | .error p => p

end Zroxy
