import Zroxy.Lib.Outbox
import Zroxy.Events.SslEffects

/-!
# What stays behind in `wbio`

OpenSSL writes to the memory BIO `wbio` in `SSL_accept`, `SSL_connect` and
`SSL_read`, whatever they return; `zxy_*_proccess_ssl_bytes` reads it only
behind a call whose status is `SSLSTATUS_WANT_IO`. So `wbio` is an outbox, the
calls of a run through the loop put bytes into it, and those that want I/O empty
it, as long as `BIO_read` does what it is documented to do (`ReadsWbio`).

`wbioDelivered_iff`: everything written during the call has gone into the
writing buffer exactly when each call that writes is one that wants I/O, or is
followed by one.
-/

namespace Zroxy

open OffsetMemory Runs

/-- What OpenSSL writes to `wbio` during the calls of one turn. -/
structure RoundOutput where
  handshake : List Byte
  reads : List Byte

/-- A call of OpenSSL: what it writes to `wbio`, how it comes out, and what the
drain reads that may follow. All `SSL_read`s of a turn count as one call, since
there is no drain between them. -/
structure SslCall where
  written : List Byte
  error : SslError
  wbio : WbioReads

namespace SslCall

variable (x : SslCall)

def Asks : Prop := getSslstatus x.error = .wantIo

instance : Decidable x.Asks := by unfold Asks; infer_instance

def drained : List Chunk := if x.Asks then x.wbio.chunks else []

def toCall : Outbox.Call Byte := ⟨x.written, decide x.Asks⟩

end SslCall

def Round.sslCalls (r : Round) (out : RoundOutput) : List SslCall :=
  (if r.initFinished then [] else [⟨out.handshake, r.handshake.error, r.handshake.wbio⟩]) ++
    (if r.reading then [⟨out.reads, r.reads.error, r.reads.wbio⟩] else [])

/-- The calls of `zxy_*_proccess_ssl_bytes` on `n` received bytes. -/
def sslCalls (rounds : ℕ → Round) (outs : ℕ → RoundOutput) (n : ℕ) : List SslCall :=
  (turns rounds n 0 n).zipIdx.flatMap fun t => t.1.sslCalls (outs t.2)

/-- `BIO_read` on `wbio`, which holds `held` at first, returns its bytes in
order; when the loop around it ends with `BIO_should_retry`, it has returned all
of them. -/
def ReadsWbio : List Byte → List SslCall → Prop
  | _, [] => True
  | held, x :: xs =>
      if x.Asks then
        chunkBytes x.wbio.chunks <+: held ++ x.written ∧
          (x.wbio.shouldRetry = true → chunkBytes x.wbio.chunks = held ++ x.written) ∧
          ReadsWbio ((held ++ x.written).drop (chunkBytes x.wbio.chunks).length) xs
      else ReadsWbio (held ++ x.written) xs

/-- No drain ends in an error of the BIO. -/
def NoBioError (xs : List SslCall) : Prop := ∀ x ∈ xs, x.Asks → x.wbio.shouldRetry = true

/-- Every call that writes to `wbio` asks for I/O, or a later one does. -/
def WritesCollected : List SslCall → Prop
  | [] => True
  | x :: xs => (x.written = [] ∨ ∃ y ∈ x :: xs, y.Asks) ∧ WritesCollected xs

def writtenBytes (xs : List SslCall) : List Byte := xs.flatMap SslCall.written

/-! ## The calls as an outbox -/

theorem written_map_toCall (xs : List SslCall) :
    Outbox.written (xs.map SslCall.toCall) = writtenBytes xs := by
  rw [Outbox.written, List.flatMap_map]
  rfl

theorem collected_map_toCall (xs : List SslCall) :
    Outbox.Collected (xs.map SslCall.toCall) ↔ WritesCollected xs := by
  induction xs with
  | nil => exact Iff.rfl
  | cons x xs ih =>
      have hasks : (∃ d ∈ (x :: xs).map SslCall.toCall, d.empties = true) ↔
          ∃ y ∈ x :: xs, y.Asks := by
        simp [SslCall.toCall]
      rw [WritesCollected, ← ih, ← hasks]
      exact Iff.rfl

/-- The chunks drained are what is taken out of the outbox. -/
theorem drained_eq_emptied {xs : List SslCall} {held : List Byte} (hreads : ReadsWbio held xs)
    (hok : NoBioError xs) :
    chunkBytes (xs.flatMap SslCall.drained) = Outbox.emptied held (xs.map SslCall.toCall) := by
  induction xs generalizing held with
  | nil => rfl
  | cons x xs ih =>
      obtain ⟨hx, hxs⟩ := List.forall_mem_cons.mp hok
      rw [List.flatMap_cons, chunkBytes_append, List.map_cons, Outbox.emptied]
      unfold ReadsWbio at hreads
      by_cases hasks : x.Asks
      · rw [if_pos hasks] at hreads
        obtain ⟨-, hall, hrest⟩ := hreads
        have heq := hall (hx hasks)
        rw [heq, List.drop_length] at hrest
        rw [ih hrest hxs, SslCall.drained, if_pos hasks, heq]
        simp [SslCall.toCall, hasks]
      · rw [if_neg hasks] at hreads
        rw [ih hreads hxs, SslCall.drained, if_neg hasks]
        simp [SslCall.toCall, hasks]

/-! ## The calls of the loop -/

theorem Round.sslCalls_drained (r : Round) (out : RoundOutput) :
    (r.sslCalls out).flatMap SslCall.drained = r.drains := by
  unfold Round.sslCalls Round.drains
  rw [List.flatMap_append]
  congr 1
  · split
    · rfl
    · simp [SslCall.drained, SslCall.Asks, HandshakeCall.drains]
  · split
    · simp [SslCall.drained, SslCall.Asks, ReadCalls.drains]
    · rfl

theorem sslCalls_drained (rounds : ℕ → Round) (outs : ℕ → RoundOutput) (n : ℕ) :
    (sslCalls rounds outs n).flatMap SslCall.drained =
      (turns rounds n 0 n).flatMap Round.drains := by
  unfold sslCalls
  rw [List.flatMap_assoc]
  simp only [Round.sslCalls_drained]
  rw [← List.flatMap_map Prod.fst, List.zipIdx_map_fst]

/-! ## The writing buffer -/

/-- The bytes went through the queue function of the writing buffer, in chunks,
once and in order. -/
def BufferManager.Appended (b b' : BufferManager) (xs : List Byte) : Prop :=
  ∃ ks, chunkBytes ks = xs ∧ b' = b.queueChunks ks

theorem BufferManager.Appended.pending {b b' : BufferManager} {xs : List Byte}
    (h : b.Appended b' xs) (hb : b.WellSized) : b'.pending = b.pending ++ xs := by
  obtain ⟨ks, rfl, rfl⟩ := h
  exact pending_queueChunks hb ks

namespace SslConn

/-- If anything was written to `wbio`, all of it is in the writing buffer, behind
what `wbio` held before. -/
def WbioDelivered (held written : List Byte) (c c' : SslConn) : Prop :=
  written = [] ∨ c.writingBufferManager.Appended c'.writingBufferManager (held ++ written)

/-- **What stays behind in `wbio`.** For either side, any received bytes and any
outcomes of OpenSSL: when `zxy_*_proccess_ssl_bytes` meets no error of a BIO,
all that was written to `wbio` in the meantime is in the writing buffer exactly
when each call that writes asks for I/O or is followed by one that does. -/
theorem wbioDelivered_iff (side : Side) (c : SslConn) (rounds : ℕ → Round)
    (outs : ℕ → RoundOutput) (n : ℕ) (held : List Byte)
    (hreads : ReadsWbio held (sslCalls rounds outs n))
    (hok : NoBioError (sslCalls rounds outs n)) :
    WbioDelivered held (writtenBytes (sslCalls rounds outs n)) c
        (proccessSslBytes (plainGrowth side) rounds n 0 0 n c).1 ↔
      WritesCollected (sslCalls rounds outs n) := by
  have hmoved := (proccessSslBytes_moved (plainGrowth side) rounds n 0 0 n c).writing
  rw [← sslCalls_drained rounds outs n] at hmoved
  set xs := sslCalls rounds outs n
  have hdrained := drained_eq_emptied hreads hok
  rw [← collected_map_toCall, Outbox.collected_iff held, written_map_toCall, WbioDelivered,
    ← Outbox.emptied_eq_iff, ← hdrained, written_map_toCall]
  refine or_congr_right ?_
  constructor
  · -- as many bytes were drained as there are, and they are the first of them
    rintro ⟨ks, hks, heq⟩
    have hprefix : chunkBytes (xs.flatMap SslCall.drained) <+: held ++ writtenBytes xs := by
      rw [hdrained, ← written_map_toCall, ← Outbox.emptied_append_leftover]
      exact List.prefix_append _ _
    apply hprefix.eq_of_length
    have hptr := congrArg BufferManager.currentBufferPtr (hmoved.symm.trans heq)
    rw [BufferManager.queueChunks_ptr, BufferManager.queueChunks_ptr, hks] at hptr
    omega
  · intro heq
    exact ⟨_, heq, hmoved⟩

/-- The handshake wants to read behind a byte that it has written. -/
def greeting : Round where
  bioWrite := 1
  initFinished := false
  handshake := ⟨.wantRead, .one (.single 22), false⟩
  reads := ⟨[], .none, .empty⟩

theorem wbioDelivered_greeting_iff :
    WbioDelivered [] (writtenBytes (sslCalls (fun _ => greeting) (fun _ => ⟨[22], []⟩) 1))
        (makeSslConn (fun _ _ => 0) 4)
        (proccessSslBytes (plainGrowth .client) (fun _ => greeting) 1 0 0 1
          (makeSslConn (fun _ _ => 0) 4)).1 ↔
      WritesCollected (sslCalls (fun _ => greeting) (fun _ => ⟨[22], []⟩) 1) := by
  apply wbioDelivered_iff
  · exact ⟨List.prefix_rfl, fun _ => rfl, trivial⟩
  · intro x hx _
    obtain rfl : x = ⟨[22], .wantRead, .one (.single 22)⟩ := List.mem_singleton.mp hx
    rfl

/-- The handshake fails for good, and says so in an alert. -/
def fatalHandshake : Round where
  bioWrite := 1
  initFinished := false
  handshake := ⟨.other, .empty, false⟩
  reads := ⟨[], .none, .empty⟩

/-- The alert is not in the writing buffer. -/
theorem alert_stays_in_wbio :
    ¬ ∀ (side : Side) (c : SslConn) (rounds : ℕ → Round) (outs : ℕ → RoundOutput) (n : ℕ)
        (held : List Byte),
      ReadsWbio held (sslCalls rounds outs n) → NoBioError (sslCalls rounds outs n) →
      WbioDelivered held (writtenBytes (sslCalls rounds outs n)) c
        (proccessSslBytes (plainGrowth side) rounds n 0 0 n c).1 := by
  intro h
  have hdelivered := h .client (makeSslConn (fun _ _ => 0) 4) (fun _ => fatalHandshake)
    (fun _ => ⟨[21], []⟩) 1 [] trivial (by
      intro x hx hasks
      obtain rfl : x = ⟨[21], .other, .empty⟩ := List.mem_singleton.mp hx
      cases hasks)
  rcases hdelivered with hnone | ⟨ks, hks, heq⟩
  · exact absurd hnone (by decide)
  · have hptr := congrArg BufferManager.currentBufferPtr heq
    rw [BufferManager.queueChunks_ptr, hks] at hptr
    exact absurd hptr (by decide)

end SslConn
end Zroxy
