import Zroxy.Parsers.HttpParser

/-!
# SSL callbacks (`events/peers/ssl`)

The two files of the source differ in three places: how the plain buffer grows
before a decrypted chunk is copied, whether the encryption routine continues an
unfinished handshake, and the Host rewriting in front of the backend's queue.
The rest is one definition, and each callback of the source is that definition
at its own values.
-/

namespace Zroxy

open OffsetMemory Runs

/-- The two ends of a proxied connection. -/
inductive Side where
  | client
  | backend
deriving DecidableEq, Repr

def Side.peer : Side → Side
  | .client => .backend
  | .backend => .client

/-! ## Event masks -/

def epollIn : UInt32 := 0x001
def epollOut : UInt32 := 0x004
def epollErr : UInt32 := 0x008
def epollHup : UInt32 := 0x010

/-- The third argument of `is_ready_event`. -/
inductive EventKind where
  | read
  | write
  | close
deriving DecidableEq, Repr

/-- The `switch` of the four `is_ready_for_event` callbacks, on a stored mask. -/
def maskReady (events : UInt32) : EventKind → Bool
  | .read => events &&& epollIn != 0
  | .write => events &&& epollOut != 0
  | .close => (events &&& epollHup) ||| (events &&& epollErr) != 0

/-- The mask those callbacks keep: `-1` asks without storing. -/
def storeMask (stored events : UInt32) : UInt32 := if events ≠ 0xFFFFFFFF then events else stored

namespace SslConn

variable (c : SslConn)

/-! ## Queues -/

/-- `zxy_client_queue_encrypted_bytes`, `zxy_backend_queue_encrypted_bytes`. -/
def queueEncryptedBytes (bytes : List Byte) : SslConn :=
  { c with writingBufferManager := c.writingBufferManager.queueBytes bytes }

/-- `zxy_client_queue_unencrypted_bytes`, `zxy_backend_queue_unencrypted_bytes`. -/
def queueUnencryptedBytes (bytes : List Byte) : SslConn :=
  { c with
    encryptBufferManager := c.encryptBufferManager.queueBytes bytes
    streams := { c.streams with queued := c.streams.queued ++ bytes } }

/-- One positive `BIO_read(wbio)`: the bytes are queued for the socket. -/
def drainChunk (k : Chunk) : SslConn :=
  { c.queueEncryptedBytes k.bytes with
    streams := { c.streams with drained := c.streams.drained ++ k.bytes } }

/-- `do { n = BIO_read(wbio) ... } while (n > 0)`. Whether it ended without an
error is `d.shouldRetry`. -/
def drainWbio (d : WbioReads) : SslConn := d.chunks.foldl drainChunk c

/-- The handshake step: an exit code where the caller must return. -/
def handshake (h : HandshakeCall) : SslConn × Option ℤ :=
  match getSslstatus h.error with
  | .wantIo =>
      -- what `BIO_read` yields before it fails is queued all the same
      if !h.wbio.shouldRetry then (c.drainWbio h.wbio, some (-1))
      else if !h.initFinished then (c.drainWbio h.wbio, some 0)
      else ({ c.drainWbio h.wbio with isSslHandshakeDone := true }, none)
  | .fail => (c, some unkownError)
  | .ok =>
      if !h.initFinished then (c, some 0) else ({ c with isSslHandshakeDone := true }, none)

/-! ## Reading -/

/-- How the plain buffer makes room for a decrypted chunk of `n` bytes. -/
abbrev PlainGrowth := BufferManager → ℕ → BufferManager

/-- The client's: the sentinel alone. -/
def clientPlainGrowth : PlainGrowth := fun b _ => b.growIfFull

/-- The backend's: the sentinel or a missing byte, one doubling either way. -/
def backendPlainGrowth : PlainGrowth := fun b n =>
  if b.shouldResizeBuffer || !b.canWriteNbytesToBuffer n then b.probed.doubleBufferSize
  else b.probed

def plainGrowth : Side → PlainGrowth
  | .client => clientPlainGrowth
  | .backend => backendPlainGrowth

/-- One positive `SSL_read`. -/
def copyPlain (grow : PlainGrowth) (k : Chunk) : SslConn :=
  { c with
    plainBufferManager := (grow c.plainBufferManager k.length).appendBytes k.bytes
    streams := { c.streams with decrypted := c.streams.decrypted ++ k.bytes } }

/-- `do { n = SSL_read(...) ... } while (n > 0)`, and the drain that follows when
OpenSSL wants I/O. An exit code where the caller must return. -/
def sslReads (grow : PlainGrowth) (r : ReadCalls) : SslConn × Option ℤ :=
  let c := r.chunks.foldl (fun c k => c.copyPlain grow k) c
  match getSslstatus r.error with
  | .wantIo => (c.drainWbio r.wbio, if r.wbio.shouldRetry then none else some unkownError)
  | .fail => (c, some unkownError)
  | .ok => (c, none)

/-- `BIO_write(rbio, read_buffer + base, ...)` took `n` bytes. -/
def feed (base n : ℤ) : SslConn :=
  { c with streams := { c.streams with
      fed := c.streams.fed ++ window c.readBufferManager.buffer base n.toNat } }

/-- What follows a successful `BIO_write` in one turn of the loop. -/
def roundBody (grow : PlainGrowth) (r : Round) : SslConn × Option ℤ :=
  if r.initFinished then c.sslReads grow r.reads
  else
    match c.handshake r.handshake with
    | (c, some code) => (c, some code)
    | (c, none) => c.sslReads grow r.reads

/-- `zxy_client_proccess_ssl_bytes`, `zxy_backend_proccess_ssl_bytes`, from turn
`i` on. Each turn feeds a byte at least, so `fuel` is the number of bytes left. -/
def proccessSslBytes (grow : PlainGrowth) (rounds : ℕ → Round) :
    ℕ → ℕ → ℤ → ℤ → SslConn → SslConn × ℤ
  | 0, _, _, _, c => (c, 0)
  | fuel + 1, i, base, remaining, c =>
      if 0 < remaining then
        let n := min (rounds i).bioWrite remaining
        if n ≤ 0 then (c, unkownError)
        else
          match (c.feed base n).roundBody grow (rounds i) with
          | (c, some code) => (c, code)
          | (c, none) => proccessSslBytes grow rounds fuel (i + 1) (base + n) (remaining - n) c
      else (c, 0)

/-- The body of `zxy_on_client_ssl_read_event` and `zxy_on_backend_ssl_read_event`:
one `recv` behind the pending bytes, then OpenSSL, then the received bytes are
taken off the read buffer again whatever OpenSSL made of them. -/
def onReadEvent (grow : PlainGrowth) (env : ReadEnv) : SslConn × ℤ :=
  let rb := c.readBufferManager.growIfFull
  let rb := rb.touch .receive rb.currentBufferPtr readBufSize
  let c := { c with readBufferManager := rb, io := c.io ++ [.recv] }
  -- one `recv`: there is no loop until `EAGAIN`
  match env.recv with
  | .received k =>
      let rb := BufferManager.nbyteWrittenToBuffer
        { rb with buffer := store rb.buffer rb.currentBufferPtr k.bytes } k.length
      let c := { c with
        readBufferManager := rb
        streams := { c.streams with received := c.streams.received ++ k.bytes } }
      let c := (proccessSslBytes grow env.rounds k.length 0 0 k.length c).1
      ({ c with readBufferManager := c.readBufferManager.consume k.length }, k.length)
  | r => (c, readSocketNonBlock r)

/-- `zxy_on_client_ssl_read_event`. -/
def onClientSslReadEvent (env : ReadEnv) : SslConn × ℤ := c.onReadEvent clientPlainGrowth env

/-- `zxy_on_backend_ssl_read_event`. -/
def onBackendSslReadEvent (env : ReadEnv) : SslConn × ℤ := c.onReadEvent backendPlainGrowth env

/-! ## Writing -/

/-- `SSL_write` took the first `n` pending bytes. -/
def takeEncrypted (n : ℤ) : SslConn :=
  { c with
    encryptBufferManager := c.encryptBufferManager.consume n
    streams := { c.streams with
      encrypted := c.streams.encrypted ++ window c.encryptBufferManager.buffer 0 n.toNat } }

/-- `while (encrypt_buffer_manager->current_buffer_ptr > 0) { SSL_write ... }`.
The variable `n` that the last test looks at is the result of `SSL_write`, or
of the last `BIO_read` once the drain has run. -/
def encryptLoop : List WriteCall → SslConn → Except Fault (SslConn × ℤ)
  | [], c => if 0 < c.encryptBufferManager.currentBufferPtr then .error .spinning else .ok (c, 0)
  | w :: ws, c =>
      if 0 < c.encryptBufferManager.currentBufferPtr then
        if 0 < w.ret then
          let c := (c.takeEncrypted w.ret).drainWbio w.wbio
          if !w.wbio.shouldRetry then .ok (c, -1)
          else if getSslstatus w.error = .fail then .ok (c, -1)
          else if w.wbio.last = 0 then .ok (c, 0)
          else encryptLoop ws c
        else if getSslstatus w.error = .fail then .ok (c, -1)
        else if w.ret = 0 then .ok (c, 0)
        else encryptLoop ws c
      else .ok (c, 0)

/-- `zxy_client_encrypt_io_req`. -/
def clientEncryptIoReq (env : WriteEnv) : Except Fault (SslConn × ℤ) :=
  if !env.initFinished then .ok (c, 0) else encryptLoop env.writes c

/-- `zxy_backend_encrypt_io_req`: an unfinished handshake is continued first. -/
def backendEncryptIoReq (env : WriteEnv) : Except Fault (SslConn × ℤ) :=
  if !env.initFinished then
    match c.handshake env.handshake with
    | (c, some code) => .ok (c, code)
    | (c, none) => encryptLoop env.writes c
  else encryptLoop env.writes c

/-- The request that the pending ciphertext makes. -/
def writeReq : WriteIoReq where
  reqFd := c.sockFd
  buffer := c.writingBufferManager.buffer
  sendNbytes := c.writingBufferManager.currentBufferPtr
  clearNbytes := c.writingBufferManager.currentBufferPtr

/-- `send` and zero-fill, `memmove` and the counter, whatever `send` returned.
The second component is `ssl_nbytes`. -/
def sendPending (send : SendResult) : SslConn × ℤ :=
  let r := writeSocketNonBlockAndClearBuf c.writeReq send
  ({ c with
      writingBufferManager :=
        BufferManager.consume { c.writingBufferManager with buffer := r.1.buffer } r.2
      streams := { c.streams with
        sent := c.streams.sent ++
          window c.writingBufferManager.buffer 0 (send.taken c.writeReq).toNat }
      io := c.io ++ [.send] }, r.2)

/-- The end of the two write callbacks, where the result code is looked at.
`nbytes` is the size of the request. -/
def flush (nbytes : ℤ) (send : SendResult) : SslConn × ℤ :=
  let r := c.sendPending send
  (r.1,
    if r.2 = 0 then 0
    else if r.2 = wouldBlock then wouldBlock
    else if r.2 = unkownError then unkownError
    else nbytes)

/-- The body of the two write callbacks behind the rewriting: queue the request,
encrypt what is queued, send what is encrypted. -/
def onWriteEvent (encryptIoReq : SslConn → WriteEnv → Except Fault (SslConn × ℤ))
    (req : WriteIoReq) (env : WriteEnv) : Except Fault (SslConn × ℤ) :=
  (encryptIoReq (c.queueUnencryptedBytes req.bytes) env).bind fun r =>
    if r.1.writingBufferManager.currentBufferPtr ≤ 0 then .ok (r.1, 0)
    else .ok (r.1.flush req.sendNbytes env.send)

/-- `zxy_on_client_ssl_write_event`, with the memory of the request after it. -/
def onClientSslWriteEvent (req : WriteIoReq) (env : WriteEnv) :
    Except Fault (SslConn × Mem Byte × ℤ) :=
  (c.onWriteEvent clientEncryptIoReq req env).bind fun r => .ok (r.1, req.buffer, r.2)

/-- `zxy_on_backend_ssl_write_event`: a complete request has its Host rewritten
in the buffer it lies in. -/
def onBackendSslWriteEvent (req : WriteIoReq) (env : WriteEnv) :
    Except Fault (SslConn × Mem Byte × ℤ) :=
  (rewriteHost req).bind fun req =>
    (c.onWriteEvent backendEncryptIoReq req env).bind fun r => .ok (r.1, req.buffer, r.2)

/-! ## The small callbacks -/

/-- `zxy_on_client_ssl_close_event`, `zxy_on_backend_ssl_close_event`. -/
def onCloseEvent : SslConn := { c with isClosed := true, io := c.io ++ [.epollDel, .close] }

/-- `zxy_client_ssl_force_close`, `zxy_backend_ssl_force_close`. -/
def forceClose : SslConn := if c.isClosed then c else c.onCloseEvent

/-- `zxy_client_ssl_request_buffer_reader`, `zxy_backend_ssl_request_buffer_reader`. -/
def requestBufferReader : WriteIoReq where
  reqFd := 0
  buffer := c.plainBufferManager.buffer
  sendNbytes := c.plainBufferManager.currentBufferPtr
  clearNbytes := c.plainBufferManager.currentBufferPtr

/-- `zxy_client_read_nbytes_from_buffer`, `zxy_backend_ssl_read_nbytes_from_buffer`. -/
def readNbytesFromBuffer (nbytes : ℤ) : SslConn :=
  if nbytes ≤ 0 then c
  else { c with plainBufferManager := c.plainBufferManager.consume nbytes }

/-- `zxy_client_ssl_is_ready_for_event`, `zxy_backend_ssl_is_ready_for_event`. -/
def isReadyForEvent (events : UInt32) (kind : EventKind) : SslConn × Bool :=
  let c := { c with events := storeMask c.events events }
  (c, maskReady c.events kind)

end SslConn
end Zroxy
