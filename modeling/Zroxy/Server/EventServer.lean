import Zroxy.Properties.BackendAttempt

/-!
# The server (`server/server.c`, `zroxy.c`)

The whole process: the listening socket, the connections behind it, and the
descriptors of all of them as the numbers they are. A number that was closed may
be handed out again, so here a system call can go to the wrong owner.

The kernel is an input of every step: the descriptors it reports, what `accept`,
`socket`, `connect` and `timerfd_create` return. It reports only what is in the
epoll set, each descriptor once in a batch, and never hands out a number that is
open.
-/

namespace Zroxy

open OffsetMemory Runs

/-! ## Events -/

/-- A client that `accept` returned, and what the kernel does while it is
connected to its backend. -/
structure Accepted where
  clientSock : ℤ
  heap : Side → ℕ → Mem Byte
  env : ClientEnv

/-- How the loop of `zxy_accept_new_conn` ends: `errno` is `EAGAIN` or
`EWOULDBLOCK`, or it is something else. -/
inductive AcceptEnd where
  | again
  | failed
deriving DecidableEq

/-- One `struct epoll_event`, and what the kernel does while it is handled: the
clients that are waiting if it is for the listening socket, the answers to the
callback of a connection otherwise. -/
structure Report where
  fd : ℤ
  events : UInt32
  clients : List Accepted
  ending : AcceptEnd
  env : EventEnv

inductive ServerEvent where
  | epollWait (reports : List Report)
  | dispatch
  | drain

/-- Why a step is not taken: the server is somewhere else or the kernel does not
behave so, a callback does not return, or the process ends. -/
inductive ServerFault where
  | notEnabled
  | callback (fault : Fault)
  | exit

/-- The server between two steps. `listenIo` is a ghost field, as the `io` of a
connection is. -/
structure ServerState where
  listenFd : ℤ
  listenIo : List SysOp
  table : HandlerTable
  conns : List TimedConnection
  batch : List (HandlerPtr × Report)
  entry : List Handler

namespace ServerState

variable (s : ServerState)

/-! ## Accepting -/

instance (openFds : Finset ℤ) : ∀ addrs, Decidable (SocketsFresh openFds addrs)
  | [] => inferInstanceAs (Decidable True)
  | ⟨none, _⟩ :: addrs => instDecidableSocketsFresh openFds addrs
  | ⟨some fd, connects⟩ :: addrs =>
      have := instDecidableSocketsFresh openFds addrs
      inferInstanceAs (Decidable (fd ∉ openFds ∧ (connects = false → SocketsFresh openFds addrs)))

/-- No number that `accept`, `socket` or `timerfd_create` returns is open at the
time. -/
def Fresh (a : Accepted) : Prop :=
  let d := s.table.descriptors.opened a.clientSock
  a.clientSock ∉ s.table.descriptors.openFds ∧
    SocketsFresh d.openFds (a.env.addrs.getD []) ∧
    ∀ fd ∈ a.env.timerFd,
      fd ∉ (connectBackend (a.env.addrs.getD []) a.env.uninitialised d).1.openFds

instance (a : Accepted) : Decidable (s.Fresh a) := by
  unfold Fresh
  infer_instance

/-- `zxy_handle_client_connection` on a client that `accept` returned. -/
def handleClient (a : Accepted) : Except ServerFault ServerState :=
  match handleClientConnection a.heap a.clientSock a.env
    ⟨s.table.opened a.clientSock, s.conns⟩ with
  | .ok p => .ok { s with table := p.table, conns := p.conns }
  | .error _ => .error .exit

/-- `zxy_accept_new_conn`: until `accept` has nothing more. -/
def acceptNewConn : List Accepted → AcceptEnd → ServerState → Except ServerFault ServerState
  | [], .again, s => .ok s
  | [], .failed, _ => .error .exit
  | a :: clients, ending, s =>
      if s.Fresh a then (s.handleClient a).bind (acceptNewConn clients ending)
      else .error .notEnabled

/-- The listening socket hung up or failed: out of the epoll set, and closed. -/
def closeListener : ServerState :=
  { s with
    table := (s.table.removeFdFromEpoll s.listenFd).close s.listenFd
    listenIo := s.listenIo ++ [.epollDel, .close] }

/-- `zxy_handle_accepting_connections`; `EPOLLOUT` is only logged. -/
def handleAcceptingConnections (r : Report) : Except ServerFault ServerState :=
  if maskReady r.events .close then .ok s.closeListener
  else if maskReady r.events .read then acceptNewConn r.clients r.ending s
  else .ok s

/-! ## The event loop -/

/-- What `epoll_wait` may report. -/
def Reportable (reports : List Report) : Prop :=
  (reports.map Report.fd).Nodup ∧ ∀ r ∈ reports, r.fd ∈ s.table.descriptors.epollSet

instance (reports : List Report) : Decidable (s.Reportable reports) := by
  unfold Reportable
  infer_instance

/-- `handler->callback(...)` for the next event of the batch. -/
def dispatch : Except ServerFault ServerState :=
  match s.batch with
  | [] => .error .notEnabled
  | (.listener, r) :: rest => { s with batch := rest }.handleAcceptingConnections r
  | (.proxy (i, h), r) :: rest =>
      match s.conns[i]? with
      | none => .error .notEnabled
      | some c =>
          match c.proxy.proxyEventsCallback ⟨h, r.events, r.env⟩ with
          | .error fault => .error (.callback fault)
          | .ok p => .ok { s with
              table := c.afterCallback p s.table
              conns := s.conns.set i { c with proxy := p }
              batch := rest
              entry := ((p.queued.drop c.proxy.queued.length).reverse.map fun h => (i, h)) ++
                s.entry }

/-- `handler->free_params(handler->params)` for the head of the free list. -/
def drain : Except ServerFault ServerState :=
  match s.batch, s.entry with
  | [], (i, h) :: rest =>
      match s.conns[i]? with
      | none => .error .notEnabled
      | some c => .ok { s with
          conns := s.conns.set i { c with proxy := c.proxy.freeProxyObj h }
          entry := rest }
  | _, _ => .error .notEnabled

/-- `zxy_event_loop`, step by step. -/
def step : ServerEvent → Except ServerFault ServerState
  | .epollWait reports =>
      if s.batch.isEmpty && s.entry.isEmpty && decide (s.Reportable reports) then
        .ok { s with batch := reports.map fun r => (s.table.ptr r.fd, r) }
      else .error .notEnabled
  | .dispatch => s.dispatch
  | .drain => s.drain

end ServerState

/-! ## Starting -/

/-- What the kernel does while the server is set up: what `getaddrinfo` returns,
for each address what `socket` and `bind` do, and then `listen` and
`epoll_create1`. -/
structure MainEnv where
  addrs : Option (List Attempt)
  listens : Bool
  epollFd : Option ℤ

/-- `main` and `zxy_start_server`, from `getaddrinfo` up to the event loop, with
`openFds` open before. The addresses are tried as those of a backend are, but
here the process ends when none is left. -/
def startServer (env : MainEnv) (openFds : Finset ℤ) : Option ServerState :=
  match env.addrs with
  | none => none
  | some addrs =>
      match connectBackend addrs 0 ⟨openFds, ∅, Finset.empty_subset _⟩, env.listens,
        env.epollFd with
      | (d, serverSock, true), true, some epollFd => some {
          listenFd := serverSock
          listenIo := [.epollAdd]
          table := HandlerTable.addHandlerToEpoll
            ⟨d.opened epollFd, fun _ => .listener⟩ serverSock .listener
          conns := []
          batch := []
          entry := [] }
      | _, _, _ => none

end Zroxy
