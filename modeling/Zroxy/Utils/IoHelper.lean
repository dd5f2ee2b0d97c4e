import Zroxy.Utils.BufferManager

/-!
# Non-blocking socket calls (`utils/io/io_helper.c`)

The kernel is an input: `RecvResult` and `SendResult` say how one `recv` or
`send` comes out. The wrappers translate that into the return codes of the
source, and `SysOp` names the system calls a descriptor sees.
-/

namespace Zroxy

open OffsetMemory

/-- `WOULD_BLOCK`. -/
def wouldBlock : ℤ := -1

/-- `UNKOWN_ERROR`. -/
def unkownError : ℤ := -2

/-- What one call delivers into a buffer of `READ_BUF_SIZE` bytes: `recv`,
`SSL_read` or `BIO_read` with a positive result. -/
structure Chunk where
  bytes : List Byte
  length_pos : 0 < bytes.length
  length_le : bytes.length ≤ readBufSize
deriving DecidableEq

namespace Chunk

abbrev length (c : Chunk) : ℕ := c.bytes.length

theorem length_le_int (c : Chunk) : (c.length : ℤ) ≤ readBufSize := by
  exact_mod_cast c.length_le

def single (x : Byte) : Chunk := ⟨[x], Nat.one_pos, Nat.le_of_ble_eq_true rfl⟩

end Chunk

def chunkBytes (cs : List Chunk) : List Byte := cs.flatMap Chunk.bytes

@[simp] theorem chunkBytes_nil : chunkBytes [] = [] := rfl

@[simp] theorem chunkBytes_cons (c : Chunk) (cs : List Chunk) :
    chunkBytes (c :: cs) = c.bytes ++ chunkBytes cs := rfl

/-- How `recv` comes out. -/
inductive RecvResult where
  | received (c : Chunk)
  | endOfStream
  | wouldBlock
  | error
deriving DecidableEq

/-- What `recv` delivers. -/
def RecvResult.delivered : RecvResult → List Byte
  | .received k => k.bytes
  | _ => []

/-- How `send` comes out: the socket has room for some bytes, or `errno` is
`EAGAIN`, or it is something else. -/
inductive SendResult where
  | room (n : ℕ)
  | wouldBlock
  | error
deriving DecidableEq

inductive SysOp where
  | epollAdd
  | recv
  | send
  | settime (seconds nanoseconds : ℤ)
  | epollDel
  | close
deriving DecidableEq, Repr

/-- `zxy_write_io_req_t`, less its flags (always 0). `buffer` is the memory
behind the pointer. -/
structure WriteIoReq where
  reqFd : ℤ
  buffer : Mem Byte
  sendNbytes : ℤ
  clearNbytes : ℤ

def WriteIoReq.bytes (r : WriteIoReq) : List Byte := window r.buffer 0 r.sendNbytes.toNat

/-- `zxy_read_socket_non_block`: the number of bytes read or an error code. -/
def readSocketNonBlock : RecvResult → ℤ
  | .received c => c.length
  | .endOfStream => 0
  | .wouldBlock => wouldBlock
  | .error => unkownError

/-- The number of bytes `send` takes of a request: never more than offered. -/
def SendResult.taken (k : SendResult) (r : WriteIoReq) : ℤ :=
  match k with
  | .room n => min n r.sendNbytes
  | _ => 0

/-- `zxy_write_socket_non_block_and_clear_buf`: the request with the sent bytes
zero-filled, and the return code. -/
def writeSocketNonBlockAndClearBuf (r : WriteIoReq) : SendResult → WriteIoReq × ℤ
  | .wouldBlock => (r, wouldBlock)
  | .error => (r, unkownError)
  | .room n =>
      let nbytes := (SendResult.room n).taken r
      let nbytes := if nbytes > r.clearNbytes then r.clearNbytes else nbytes
      ({ r with buffer := fill r.buffer 0 nbytes 0 }, nbytes)

theorem SendResult.taken_bounds (send : SendResult) {req : WriteIoReq}
    (h : 0 ≤ req.sendNbytes) : 0 ≤ send.taken req ∧ send.taken req ≤ req.sendNbytes := by
  cases send with
  | room n =>
      show 0 ≤ min (n : ℤ) req.sendNbytes ∧ min (n : ℤ) req.sendNbytes ≤ req.sendNbytes
      omega
  | wouldBlock => exact ⟨le_refl 0, h⟩
  | error => exact ⟨le_refl 0, h⟩

/-- The result of the sending wrapper: what was taken, cut to what may be
cleared, or a negative code when nothing was taken. -/
theorem writeSocketNonBlockAndClearBuf_snd (req : WriteIoReq) (send : SendResult) :
    (writeSocketNonBlockAndClearBuf req send).2 =
        min (send.taken req) req.clearNbytes ∨
      ((writeSocketNonBlockAndClearBuf req send).2 < 0 ∧ send.taken req = 0) := by
  cases send with
  | room n =>
      left
      show (if min (n : ℤ) req.sendNbytes > req.clearNbytes then req.clearNbytes
        else min (n : ℤ) req.sendNbytes) = min (min (n : ℤ) req.sendNbytes) req.clearNbytes
      split <;> omega
  | wouldBlock => exact Or.inr ⟨Int.negSucc_lt_zero 0, rfl⟩
  | error => exact Or.inr ⟨Int.negSucc_lt_zero 1, rfl⟩

theorem writeSocketNonBlockAndClearBuf_buffer {req : WriteIoReq} (send : SendResult)
    (h : req.clearNbytes = req.sendNbytes) :
    (writeSocketNonBlockAndClearBuf req send).1.buffer =
      fill req.buffer 0 (send.taken req) 0 := by
  cases send with
  | room n =>
      have hle : ¬ min (n : ℤ) req.sendNbytes > req.clearNbytes := by omega
      show fill req.buffer 0 (if min (n : ℤ) req.sendNbytes > req.clearNbytes
        then req.clearNbytes else min (n : ℤ) req.sendNbytes) 0 = _
      rw [if_neg hle]
      rfl
  | wouldBlock => exact (fill_zero _ _ _).symm
  | error => exact (fill_zero _ _ _).symm

/-- `send` failed: it would block, or worse. -/
def SendResult.failed : SendResult → Bool
  | .room _ => false
  | _ => true

end Zroxy
