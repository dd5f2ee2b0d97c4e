import Zroxy.Events.PlainCallbacks

/-!
# Proxy callbacks (`events/peers/proxy_callbacks.c`, `connections/connections.c`)

A proxy connection is two bases (client and backend), a timer status and a
reference count. The client half and the backend half of the source mirror each
other, so both are one definition over the side that has the event.

Ghost fields: `calls` is every call through a member of a base, `queued` every
handler put on the free list, `drained` every handler taken off it, `freed`
whether the proxy object itself has been freed, and `timerIo` every system call
on the timer descriptor. All lists are oldest first.
-/

namespace Zroxy

open OffsetMemory Runs

/-! ## Timer status (`utils/timer/timers.h`) -/

def timerRelaxed : ℤ := -3
def timerIsUp : ℤ := -2
def relaxTimer : ℤ := -1

/-- `sock_type` of a handler. -/
inductive SockType where
  | clientSock
  | backendSock
  | proxyTimerSock
deriving DecidableEq, Repr

def Side.sockType : Side → SockType
  | .client => .clientSock
  | .backend => .backendSock

/-- The members of `zxy_client_base_t` and `zxy_backend_base_t`. -/
inductive Callback where
  | onRead
  | onWrite
  | onClose
  | requestBufferReader
  | readNbytes
  | forceClose
  | isReadyEvent
  | freeParams
deriving DecidableEq, Repr

/-! ## Connections of either type -/

/-- `params` of a base. -/
inductive Conn where
  | plain (c : PlainConn)
  | ssl (c : SslConn)

/-- `enum zxy_conn_type`. -/
inductive ConnType where
  | plainConn
  | sslConn
deriving DecidableEq, Repr

namespace Conn

def io : Conn → List SysOp
  | .plain c => c.io
  | .ssl c => c.io

def isClosed : Conn → Bool
  | .plain c => c.isClosed
  | .ssl c => c.isClosed

def events : Conn → UInt32
  | .plain c => c.events
  | .ssl c => c.events

/-- The bytes a peer is offered by `request_buffer_reader`. -/
def offered : Conn → List Byte
  | .plain c => c.bufferManager.pending
  | .ssl c => c.plainBufferManager.pending

/-- `on_read`. -/
def onRead (side : Side) (env : ReadEnv) : Conn → Conn × ℤ
  | .plain c => let r := c.onReadEvent env; (.plain r.1, r.2)
  | .ssl c =>
      match side with
      | .client => let r := c.onClientSslReadEvent env; (.ssl r.1, r.2)
      | .backend => let r := c.onBackendSslReadEvent env; (.ssl r.1, r.2)

/-- `on_write`: the connection, the memory of the request, the return code. -/
def onWrite (side : Side) (req : WriteIoReq) (env : WriteEnv) :
    Conn → Except Fault (Conn × Mem Byte × ℤ)
  | .plain c => let r := c.onWriteEvent req env; .ok (.plain r.1, r.2.1, r.2.2)
  | .ssl c =>
      match side with
      | .client => (c.onClientSslWriteEvent req env).bind fun r => .ok (.ssl r.1, r.2.1, r.2.2)
      | .backend => (c.onBackendSslWriteEvent req env).bind fun r => .ok (.ssl r.1, r.2.1, r.2.2)

/-- `on_close`. -/
def onClose : Conn → Conn
  | .plain c => .plain c.onCloseEvent
  | .ssl c => .ssl c.onCloseEvent

/-- `force_close`. -/
def forceClose : Conn → Conn
  | .plain c => .plain c.forceClose
  | .ssl c => .ssl c.forceClose

/-- `request_buffer_reader`. -/
def requestBufferReader : Conn → WriteIoReq
  | .plain c => c.requestBufferReader
  | .ssl c => c.requestBufferReader

/-- The memory behind the pointer of `request_buffer_reader`, after a callee has
written to it. -/
def setSource (buffer : Mem Byte) : Conn → Conn
  | .plain c => .plain { c with bufferManager := { c.bufferManager with buffer := buffer } }
  | .ssl c => .ssl { c with plainBufferManager := { c.plainBufferManager with buffer := buffer } }

/-- `read_nbytes`, which `zxy_set_up_client_plain_base_callbacks` leaves NULL. -/
def readNbytes (side : Side) (nbytes : ℤ) : Conn → Except Fault Conn
  | .plain c =>
      match side with
      | .client => .error .nullCall
      | .backend => .ok (.plain (c.readNbytesFromBuffer nbytes))
  | .ssl c => .ok (.ssl (c.readNbytesFromBuffer nbytes))

/-- `is_ready_event`. -/
def isReadyEvent (events : UInt32) (kind : EventKind) : Conn → Conn × Bool
  | .plain c => let r := c.isReadyForEvent events kind; (.plain r.1, r.2)
  | .ssl c => let r := c.isReadyForEvent events kind; (.ssl r.1, r.2)

/-- `zxy_add_handler_to_epoll` on the socket. -/
def addToEpoll : Conn → Conn
  | .plain c => .plain { c with io := c.io ++ [.epollAdd] }
  | .ssl c => .ssl { c with io := c.io ++ [.epollAdd] }

/-- `zxy_make_client_conn_with_type`, `zxy_make_backend_conn_with_type`. -/
def makeWithType (heap : ℕ → Mem Byte) (fd : ℤ) : ConnType → Conn
  | .plainConn => .plain (makePlainConn (heap 0) fd)
  | .sslConn => .ssl (makeSslConn heap fd)

end Conn

/-- `zxy_client_base_t`, `zxy_backend_base_t`. -/
structure Base where
  params : Conn
  setFree : Bool

/-- `zxy_proxy_connection_t`. -/
structure ProxyConnection where
  client : Base
  backend : Base
  timerStatusAndFd : ℤ
  refrenceCounter : ℤ
  calls : List (Side × Callback)
  queued : List SockType
  drained : List SockType
  freed : Bool
  timerIo : List SysOp

/-- What the kernel and OpenSSL do during one event: the side's own `on_read`,
the peer's `on_write` behind it, and the side's own `on_write`. -/
structure EventEnv where
  read : ReadEnv
  relay : WriteEnv
  write : WriteEnv

/-- One event handed to `zxy_proxy_events_callback`. -/
structure SockEvent where
  sockType : SockType
  events : UInt32
  env : EventEnv

namespace ProxyConnection

variable (p : ProxyConnection)

def base : Side → Base
  | .client => p.client
  | .backend => p.backend

def setBase (b : Base) : Side → ProxyConnection
  | .client => { p with client := b }
  | .backend => { p with backend := b }

def setParams (s : Side) (c : Conn) : ProxyConnection :=
  p.setBase { p.base s with params := c } s

/-- Note a call through a member of a base. -/
def record (s : Side) (f : Callback) : ProxyConnection := { p with calls := p.calls ++ [(s, f)] }

/-! ## Calls through the bases -/

def isReadyEvent (s : Side) (events : UInt32) (kind : EventKind) : ProxyConnection × Bool :=
  let r := (p.base s).params.isReadyEvent events kind
  ((p.record s .isReadyEvent).setParams s r.1, r.2)

def onRead (s : Side) (env : ReadEnv) : ProxyConnection × ℤ :=
  let r := (p.base s).params.onRead s env
  ((p.record s .onRead).setParams s r.1, r.2)

def onClose (s : Side) : ProxyConnection :=
  (p.record s .onClose).setParams s (p.base s).params.onClose

def forceClose (s : Side) : ProxyConnection :=
  (p.record s .forceClose).setParams s (p.base s).params.forceClose

/-- `free_params`, which sets `set_free`. -/
def freeParams (s : Side) : ProxyConnection :=
  (p.record s .freeParams).setBase { p.base s with setFree := true } s

/-- `request_buffer_reader` of one side and `on_write` of its peer on what it
returned; what the callee writes to the request it writes to the side's buffer. -/
def writeFrom (source : Side) (env : WriteEnv) : Except Fault (ProxyConnection × ℤ) :=
  let p := p.record source .requestBufferReader
  let req := (p.base source).params.requestBufferReader
  let p := p.record source.peer .onWrite
  ((p.base source.peer).params.onWrite source.peer req env).bind fun r =>
    .ok (((p.setParams source.peer r.1).setParams source
      ((p.base source).params.setSource r.2.1)), r.2.2)

def readNbytes (s : Side) (nbytes : ℤ) : Except Fault ProxyConnection :=
  let p := p.record s .readNbytes
  ((p.base s).params.readNbytes s nbytes).bind fun c => .ok (p.setParams s c)

/-- `zxy_add_block_to_link_list` on one of the handlers. -/
def addBlockToLinkList (h : SockType) : ProxyConnection := { p with queued := p.queued ++ [h] }

/-! ## The event handlers -/

/-- The body of `zxy_check_backend_close` and `zxy_check_client_close`: a freed
peer takes the side with it. -/
def checkPeerClose (me : Side) : ProxyConnection × Bool :=
  if (p.base me.peer).setFree then
    let p := p.freeParams me.peer
    let p := p.forceClose me
    let p := p.freeParams me
    let p := p.addBlockToLinkList .backendSock
    let p := p.addBlockToLinkList .clientSock
    (p, true)
  else (p, false)

/-- `zxy_check_backend_close`. -/
def checkBackendClose : ProxyConnection × Bool := p.checkPeerClose .client

/-- `zxy_check_client_close`. -/
def checkClientClose : ProxyConnection × Bool := p.checkPeerClose .backend

/-- The READ branch: receive, and offer what is pending to a peer whose stored
mask says it can write. The flag is set when the handler returns here. -/
def handleReadEvent (me : Side) (events : UInt32) (env : EventEnv) :
    Except Fault (ProxyConnection × Bool) :=
  let (p, ready) := p.isReadyEvent me events .read
  if !ready then .ok (p, false)
  else
    let (p, gone) := p.checkPeerClose me
    if gone then .ok (p, true)
    else
      let (p, readBytes) := p.onRead me env.read
      if 0 < readBytes then
        -- the mask -1 asks about the stored one
        let (p, writable) := p.isReadyEvent me.peer 0xFFFFFFFF .write
        if writable then
          (p.writeFrom me env.relay).bind fun r =>
            (r.1.readNbytes me r.2).bind fun p => .ok (p, false)
        else .ok (p, false)
      else .ok (p, false)

/-- The WRITE branch: what the peer has pending is written, and nothing is taken
off the peer's buffer. -/
def handleWriteEvent (me : Side) (events : UInt32) (env : EventEnv) :
    Except Fault ProxyConnection :=
  let (p, ready) := p.isReadyEvent me events .write
  if !ready then .ok p
  else (p.writeFrom me.peer env.write).bind fun r => .ok (r.1.checkPeerClose me).1

/-- The body of `zxy_handle_client_events` and `zxy_handle_backend_events`. -/
def handlePeerEvents (me : Side) (events : UInt32) (env : EventEnv) :
    Except Fault ProxyConnection :=
  let (p, closing) := p.isReadyEvent me events .close
  if closing then .ok (p.onClose me)
  else (p.handleReadEvent me events env).bind fun r =>
    if r.2 then .ok r.1 else r.1.handleWriteEvent me events env

/-- `zxy_handle_client_events`. -/
def handleClientEvents (events : UInt32) (env : EventEnv) : Except Fault ProxyConnection :=
  p.handlePeerEvents .client events env

/-- `zxy_handle_backend_events`. -/
def handleBackendEvents (events : UInt32) (env : EventEnv) : Except Fault ProxyConnection :=
  p.handlePeerEvents .backend events env

/-- One half of `zxy_handle_timer_up_events`. -/
def closeAndFree (s : Side) : ProxyConnection :=
  if !(p.base s).setFree then (p.forceClose s).freeParams s else p

/-- `zxy_handle_timer_up_events`. -/
def handleTimerUpEvents : ProxyConnection :=
  let p := p.closeAndFree .backend
  let p := p.closeAndFree .client
  let p := p.addBlockToLinkList .backendSock
  p.addBlockToLinkList .clientSock

/-- `zxy_set_timer_time_with` on the timer descriptor. -/
def setTimerTimeWith (seconds nanoseconds : ℤ) : ProxyConnection :=
  { p with timerIo := p.timerIo ++ [.settime seconds nanoseconds] }

/-- `zxy_free_timer_handler`: out of the epoll set, on to the free list. -/
def freeTimerHandler : ProxyConnection :=
  addBlockToLinkList { p with timerIo := p.timerIo ++ [.epollDel] } .proxyTimerSock

/-- The `PROXY_TIMER_SOCK` case. -/
def handleTimerEvent : ProxyConnection :=
  if p.timerStatusAndFd = relaxTimer then
    setTimerTimeWith { p with timerStatusAndFd := timerRelaxed } 1 0
  else if p.timerStatusAndFd = timerRelaxed ∨ 0 < p.timerStatusAndFd then
    (handleTimerUpEvents { p with timerStatusAndFd := timerIsUp }).freeTimerHandler
  -- the 0 of a connection on which nothing has happened yet
  else p

/-- `zxy_proxy_events_callback`. -/
def proxyEventsCallback (e : SockEvent) : Except Fault ProxyConnection :=
  if p.timerStatusAndFd = timerIsUp then .ok p
  else
    match e.sockType with
    | .clientSock => (p.handleClientEvents e.events e.env).bind fun p =>
        .ok { p with timerStatusAndFd := relaxTimer }
    | .backendSock => (p.handleBackendEvents e.events e.env).bind fun p =>
        .ok { p with timerStatusAndFd := relaxTimer }
    | .proxyTimerSock => .ok p.handleTimerEvent

/-- `zxy_free_proxy_obj`, on behalf of one drained handler. -/
def freeProxyObj (h : SockType) : ProxyConnection :=
  let p := { p with refrenceCounter := p.refrenceCounter - 1, drained := p.drained ++ [h] }
  if p.refrenceCounter ≠ 0 then p else { p with freed := true }

/-! ## Creation -/

/-- `zxy_make_proxy_connection`: everything `calloc` leaves is 0, the timer
status included. -/
def makeProxyConnection (heap : Side → ℕ → Mem Byte) (clientFd : ℤ) (clientType : ConnType)
    (backendFd : ℤ) (backendType : ConnType) : ProxyConnection where
  client := ⟨.makeWithType (heap .client) clientFd clientType, false⟩
  backend := ⟨.makeWithType (heap .backend) backendFd backendType, false⟩
  timerStatusAndFd := 0
  refrenceCounter := 0
  calls := []
  queued := []
  drained := []
  freed := false
  timerIo := []

/-- `make_proxy_event_handler` and `zxy_add_handler_to_epoll` for one of the
three descriptors. -/
def makeProxyEventHandler (h : SockType) : ProxyConnection :=
  let p := { p with refrenceCounter := p.refrenceCounter + 1 }
  match h with
  | .clientSock => p.setParams .client (p.base .client).params.addToEpoll
  | .backendSock => p.setParams .backend (p.base .backend).params.addToEpoll
  | .proxyTimerSock => { p with timerIo := p.timerIo ++ [.epollAdd] }

/-- The end of `zxy_handle_client_connection`, with both sockets connected: the
object, the client's and the backend's handler, a timer of ten seconds and its
handler. -/
def newConnection (heap : Side → ℕ → Mem Byte) (clientFd : ℤ) (clientType : ConnType)
    (backendFd : ℤ) (backendType : ConnType) : ProxyConnection :=
  let p := makeProxyConnection heap clientFd clientType backendFd backendType
  let p := p.makeProxyEventHandler .clientSock
  let p := p.makeProxyEventHandler .backendSock
  let p := p.setTimerTimeWith 10 0
  p.makeProxyEventHandler .proxyTimerSock

end ProxyConnection
end Zroxy
