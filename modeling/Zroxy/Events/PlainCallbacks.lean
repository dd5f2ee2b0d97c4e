import Zroxy.Events.SslCallbacks

/-!
# Plain callbacks (`events/peers/plain`)

The client and the backend version of each callback do the same; the backend
alone has a `read_nbytes`.
-/

namespace Zroxy

open OffsetMemory

namespace PlainConn

variable (c : PlainConn)

/-- `zxy_on_client_plain_read_event`, `zxy_on_backend_plain_read_event`. -/
def onReadEvent (env : ReadEnv) : PlainConn × ℤ :=
  let b := c.bufferManager.growIfFull
  let b := b.touch .receive b.currentBufferPtr readBufSize
  let c := { c with bufferManager := b, io := c.io ++ [.recv] }
  match env.recv with
  | .received k =>
      let b := BufferManager.nbyteWrittenToBuffer
        { b with buffer := store b.buffer b.currentBufferPtr k.bytes } k.length
      ({ c with
          bufferManager := b
          streams := { c.streams with received := c.streams.received ++ k.bytes } }, k.length)
  | r => (c, readSocketNonBlock r)

/-- `zxy_on_client_plain_write_event`, `zxy_on_backend_plain_write_event`: the
request is sent as it is, and its sent bytes are zero-filled where they lie. -/
def onWriteEvent (req : WriteIoReq) (env : WriteEnv) : PlainConn × Mem Byte × ℤ :=
  let req := { req with reqFd := c.sockFd }
  let (req', nbytes) := writeSocketNonBlockAndClearBuf req env.send
  let c := { c with
    streams := { c.streams with
      sent := c.streams.sent ++ window req.buffer 0 (env.send.taken req).toNat }
    io := c.io ++ [.send] }
  (c, req'.buffer, nbytes)

/-- `zxy_on_client_plain_close_event`, `zxy_on_backend_plain_close_event`. -/
def onCloseEvent : PlainConn := { c with isClosed := true, io := c.io ++ [.epollDel, .close] }

/-- `zxy_client_plain_force_close`, `zxy_backend_plain_force_close`. -/
def forceClose : PlainConn := if c.isClosed then c else c.onCloseEvent

/-- `zxy_client_plain_request_buffer_reader`, `zxy_backend_plain_request_buffer_reader`. -/
def requestBufferReader : WriteIoReq where
  reqFd := 0
  buffer := c.bufferManager.buffer
  sendNbytes := c.bufferManager.currentBufferPtr
  clearNbytes := c.bufferManager.currentBufferPtr

/-- `zxy_backend_read_nbytes_from_buffer`. -/
def readNbytesFromBuffer (nbytes : ℤ) : PlainConn :=
  if nbytes ≤ 0 then c else { c with bufferManager := c.bufferManager.consume nbytes }

/-- `zxy_client_plain_is_ready_for_event`, `zxy_backend_plain_is_ready_for_event`. -/
def isReadyForEvent (events : UInt32) (kind : EventKind) : PlainConn × Bool :=
  let c := { c with events := storeMask c.events events }
  (c, maskReady c.events kind)

end PlainConn
end Zroxy
