import Zroxy.Utils.IoHelper

/-!
# Connection state (`connections/conntypes`, `connections/plain`, `connections/ssl`)

The client and the backend types of the source have the same fields, so one
structure models each pair. OpenSSL is not part of the repository: what it
answers during one callback is an input of that callback, given as the list of
results the code would see (`Round`, `WriteCall`, ...). A list with its end is
a `do ... while (n > 0)` loop that ended.

Ghost fields: `streams` keeps every byte that went through a point of the
connection, oldest first, and `io` every system call on the socket.
-/

namespace Zroxy

open OffsetMemory

/-! ## What OpenSSL answers -/

/-- `SSL_get_error`, as far as the code tells the codes apart. -/
inductive SslError where
  | none
  | wantWrite
  | wantRead
  | zeroReturn
  | syscall
  | other
deriving DecidableEq, Repr

/-- `enum sslstatus`. -/
inductive SslStatus where
  | ok
  | wantIo
  | fail
deriving DecidableEq, Repr

/-- `get_sslstatus`. -/
def getSslstatus : SslError → SslStatus
  | .none => .ok
  | .wantWrite => .wantIo
  | .wantRead => .wantIo
  | .zeroReturn => .fail
  | .syscall => .fail
  | .other => .fail

/-- `BIO_read(wbio)` until it returns no bytes: the chunks, the last result and
`BIO_should_retry` after it. -/
structure WbioReads where
  chunks : List Chunk
  last : ℤ
  last_nonpos : last ≤ 0
  shouldRetry : Bool
deriving DecidableEq

/-- An empty memory BIO: `-1`, to be retried. -/
def WbioReads.empty : WbioReads := ⟨[], -1, by decide, true⟩

/-- A memory BIO with one chunk in it. -/
def WbioReads.one (k : Chunk) : WbioReads := { WbioReads.empty with chunks := [k] }

/-- One `SSL_accept` or `SSL_connect`, the drain after it, and
`SSL_is_init_finished` after that. -/
structure HandshakeCall where
  error : SslError
  wbio : WbioReads
  initFinished : Bool
deriving DecidableEq

/-- `SSL_read` until it returns no bytes, and the drain after it. -/
structure ReadCalls where
  chunks : List Chunk
  error : SslError
  wbio : WbioReads
deriving DecidableEq

/-- One turn of the loop of `zxy_*_proccess_ssl_bytes`: the result of
`BIO_write`, `SSL_is_init_finished`, and the calls that follow. -/
structure Round where
  bioWrite : ℤ
  initFinished : Bool
  handshake : HandshakeCall
  reads : ReadCalls
deriving DecidableEq

/-- One `SSL_write`, and the drain after it. -/
structure WriteCall where
  ret : ℤ
  error : SslError
  wbio : WbioReads
deriving DecidableEq

/-- What the kernel and OpenSSL do during one `on_read`. -/
structure ReadEnv where
  recv : RecvResult
  rounds : ℕ → Round

/-- What the kernel and OpenSSL do during one `on_write`. -/
structure WriteEnv where
  initFinished : Bool
  handshake : HandshakeCall
  writes : List WriteCall
  send : SendResult

/-- Why a callback does not return: the encryption loop asks OpenSSL more often
than it has answers, a call through a NULL member, a read through a NULL
header name. -/
inductive Fault where
  | spinning
  | nullCall
  | nullName
deriving DecidableEq, Repr

/-! ## Connections -/

/-- The bytes that went through the points of a connection. -/
structure Streams where
  received : List Byte
  fed : List Byte
  decrypted : List Byte
  queued : List Byte
  encrypted : List Byte
  drained : List Byte
  sent : List Byte

/-- Nothing has happened yet. -/
def Streams.init : Streams := ⟨[], [], [], [], [], [], []⟩

/-- `zxy_client_conn_t` and `zxy_backend_conn_t`. -/
structure PlainConn where
  sockFd : ℤ
  isClosed : Bool
  events : UInt32
  bufferManager : BufferManager
  streams : Streams
  io : List SysOp

/-- `zxy_client_ssl_conn_t` and `zxy_backend_ssl_conn_t`. -/
structure SslConn where
  sockFd : ℤ
  isClosed : Bool
  events : UInt32
  encryptBufferManager : BufferManager
  writingBufferManager : BufferManager
  readBufferManager : BufferManager
  plainBufferManager : BufferManager
  isSslHandshakeDone : Bool
  streams : Streams
  io : List SysOp

/-- A manager as every connection allocates it. -/
def newBufferManager (heap : Mem Byte) : BufferManager :=
  .mallocBufferManagerWithBufferSize heap (readBufSize + 1)

/-- `zxy_make_client_plain_conn` and `zxy_make_backend_plain_conn`. -/
def makePlainConn (heap : Mem Byte) (sockFd : ℤ) : PlainConn where
  sockFd := sockFd
  isClosed := false
  events := 0
  bufferManager := newBufferManager heap
  streams := Streams.init
  io := []

/-- `zxy_make_client_ssl_conn` and `zxy_make_backend_ssl_conn`; one heap per
manager. -/
def makeSslConn (heap : ℕ → Mem Byte) (sockFd : ℤ) : SslConn where
  sockFd := sockFd
  isClosed := false
  events := 0
  encryptBufferManager := newBufferManager (heap 0)
  writingBufferManager := newBufferManager (heap 1)
  readBufferManager := newBufferManager (heap 2)
  plainBufferManager := newBufferManager (heap 3)
  isSslHandshakeDone := false
  streams := Streams.init
  io := []

theorem newBufferManager_wellSized (heap : Mem Byte) : (newBufferManager heap).WellSized :=
  BufferManager.WellSized.malloc heap

end Zroxy
