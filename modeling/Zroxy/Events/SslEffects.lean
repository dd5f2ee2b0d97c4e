import Zroxy.Events.SslCallbacks

/-!
# What the SSL callbacks move

Which chunks a callback moves depends on what the kernel and OpenSSL answer, not
on the bytes themselves. So the chunks are functions of the answers
(`ReadEnv.plain`, `ReadEnv.drains`, `WriteEnv.drains`), and a callback is summed
up by `Moved`: what was copied behind the pending plaintext, what was queued
behind the pending ciphertext, which system calls were made, and that everything
else the proxy looks at is as it was.
-/

namespace Zroxy

open OffsetMemory Runs

/-! ## Chunks into buffers -/

theorem chunkBytes_append (ks ls : List Chunk) :
    chunkBytes (ks ++ ls) = chunkBytes ks ++ chunkBytes ls := by
  simp [chunkBytes]

namespace BufferManager

/-- Chunk after chunk through a queue function. -/
def queueChunks (b : BufferManager) (ks : List Chunk) : BufferManager :=
  ks.foldl (fun b k => b.queueBytes k.bytes) b

@[simp] theorem queueChunks_nil (b : BufferManager) : b.queueChunks [] = b := rfl

theorem queueChunks_append (b : BufferManager) (ks ls : List Chunk) :
    b.queueChunks (ks ++ ls) = (b.queueChunks ks).queueChunks ls := by
  simp [queueChunks]

theorem queueChunks_ptr (b : BufferManager) (ks : List Chunk) :
    (b.queueChunks ks).currentBufferPtr = b.currentBufferPtr + (chunkBytes ks).length := by
  induction ks generalizing b with
  | nil => simp
  | cons k ks ih =>
      have hstep := ih (b.queueBytes k.bytes)
      rw [queueBytes_ptr] at hstep
      simp only [queueChunks, List.foldl_cons, chunkBytes_cons, List.length_append,
        Nat.cast_add] at hstep ⊢
      omega

theorem WellSized.queueChunks {b : BufferManager} (h : b.WellSized) (ks : List Chunk) :
    (b.queueChunks ks).WellSized := by
  induction ks generalizing b with
  | nil => exact h
  | cons k ks ih => exact ih (h.queueBytes k.bytes)

theorem pending_queueChunks {b : BufferManager} (h : b.WellSized) (ks : List Chunk) :
    (b.queueChunks ks).pending = b.pending ++ chunkBytes ks := by
  induction ks generalizing b with
  | nil => simp
  | cons k ks ih =>
      have hstep := ih (h.queueBytes k.bytes)
      rw [pending_queueBytes h, List.append_assoc] at hstep
      exact hstep

/-- Chunk after chunk into a plain buffer. -/
def copyChunks (grow : SslConn.PlainGrowth) (b : BufferManager) (ks : List Chunk) :
    BufferManager :=
  ks.foldl (fun b k => (grow b k.length).appendBytes k.bytes) b

@[simp] theorem copyChunks_nil (grow : SslConn.PlainGrowth) (b : BufferManager) :
    copyChunks grow b [] = b := rfl

@[simp] theorem copyChunks_cons (grow : SslConn.PlainGrowth) (b : BufferManager) (k : Chunk)
    (ks : List Chunk) :
    copyChunks grow b (k :: ks) =
      copyChunks grow ((grow b k.length).appendBytes k.bytes) ks := rfl

theorem copyChunks_append (grow : SslConn.PlainGrowth) (b : BufferManager)
    (ks ls : List Chunk) :
    copyChunks grow b (ks ++ ls) = copyChunks grow (copyChunks grow b ks) ls := by
  simp [copyChunks]

theorem plainGrowth_ptr (side : Side) (b : BufferManager) (n : ℕ) :
    (SslConn.plainGrowth side b n).currentBufferPtr = b.currentBufferPtr := by
  cases side with
  | client => exact growIfFull_ptr b
  | backend =>
      simp only [SslConn.plainGrowth, SslConn.backendPlainGrowth]
      split <;> rfl

theorem copyChunks_ptr (side : Side) (b : BufferManager) (ks : List Chunk) :
    (copyChunks (SslConn.plainGrowth side) b ks).currentBufferPtr =
      b.currentBufferPtr + (chunkBytes ks).length := by
  induction ks generalizing b with
  | nil => simp
  | cons k ks ih =>
      rw [copyChunks_cons, ih, appendBytes_ptr, plainGrowth_ptr, chunkBytes_cons,
        List.length_append]
      push_cast
      omega

theorem two_le_copyChunks_client {b : BufferManager} (h : 2 ≤ b.maxSizeOfBuffer)
    (ks : List Chunk) :
    2 ≤ (copyChunks (SslConn.plainGrowth .client) b ks).maxSizeOfBuffer := by
  induction ks generalizing b with
  | nil => exact h
  | cons k ks ih => exact ih (two_le_growIfFull_max h)

/-- The backend's growth always makes room: a full buffer has room for a chunk
once it is doubled. -/
theorem backendPlainGrowth_spec {b : BufferManager} (h : b.WellSized) (k : Chunk) :
    (SslConn.backendPlainGrowth b k.length).WellSized ∧
      (SslConn.backendPlainGrowth b k.length).currentBufferPtr + k.length ≤
        (SslConn.backendPlainGrowth b k.length).maxSizeOfBuffer ∧
      (SslConn.backendPlainGrowth b k.length).pending = b.pending := by
  have hlen := k.length_le_int
  have hptr := h.ptr_le
  have hmax := h.max_ge
  unfold SslConn.backendPlainGrowth
  split
  · refine ⟨h.probed.doubleBufferSize, ?_, ?_⟩
    · simp only [doubleBufferSize_ptr, doubleBufferSize_max, probed_ptr, probed_max]
      omega
    · rw [pending_doubleBufferSize h.probed.ptr_le h.probed.max_nonneg, pending_probed]
  · rename_i hroom
    simp only [Bool.or_eq_true, Bool.not_eq_true', not_or, Bool.not_eq_false,
      canWriteNbytesToBuffer_iff] at hroom
    exact ⟨h.probed, hroom.2, rfl⟩

theorem copyChunks_backend {ks : List Chunk} {b : BufferManager} (h : b.WellSized) :
    (copyChunks SslConn.backendPlainGrowth b ks).WellSized ∧
      (copyChunks SslConn.backendPlainGrowth b ks).pending = b.pending ++ chunkBytes ks := by
  induction ks generalizing b with
  | nil => exact ⟨h, by simp⟩
  | cons k ks ih =>
      obtain ⟨hsized, hfit, hpending⟩ := backendPlainGrowth_spec h k
      obtain ⟨hsized', hpending'⟩ := ih (hsized.appendBytes hfit)
      refine ⟨hsized', ?_⟩
      rw [copyChunks_cons, hpending', pending_appendBytes hsized.ptr_nonneg, hpending,
        List.append_assoc, chunkBytes_cons]

end BufferManager

/-! ## The chunks of one callback -/

def HandshakeCall.drains (h : HandshakeCall) : List Chunk :=
  if getSslstatus h.error = .wantIo then h.wbio.chunks else []

def HandshakeCall.code (h : HandshakeCall) : Option ℤ :=
  match getSslstatus h.error with
  | .wantIo =>
      if !h.wbio.shouldRetry then some (-1) else if !h.initFinished then some 0 else none
  | .fail => some unkownError
  | .ok => if !h.initFinished then some 0 else none

/-- What the drain after `SSL_read` takes. -/
def ReadCalls.drains (r : ReadCalls) : List Chunk :=
  if getSslstatus r.error = .wantIo then r.wbio.chunks else []

def ReadCalls.code (r : ReadCalls) : Option ℤ :=
  match getSslstatus r.error with
  | .wantIo => if r.wbio.shouldRetry then none else some unkownError
  | .fail => some unkownError
  | .ok => none

namespace Round

variable (r : Round)

/-- The turn comes to its `SSL_read`s. -/
def reading : Bool := r.initFinished || r.handshake.code.isNone

def plain : List Chunk := if r.reading then r.reads.chunks else []

def drains : List Chunk :=
  (if r.initFinished then [] else r.handshake.drains) ++
    (if r.reading then r.reads.drains else [])

def code : Option ℤ :=
  if r.initFinished then r.reads.code
  else match r.handshake.code with
    | some code => some code
    | none => r.reads.code

end Round

/-- The turns that `zxy_*_proccess_ssl_bytes` takes. -/
def turns (rounds : ℕ → Round) : ℕ → ℕ → ℤ → List Round
  | 0, _, _ => []
  | fuel + 1, i, remaining =>
      if 0 < remaining then
        let n := min (rounds i).bioWrite remaining
        if n ≤ 0 then []
        else if (rounds i).code.isSome then [rounds i]
        else rounds i :: turns rounds fuel (i + 1) (remaining - n)
      else []

namespace ReadEnv

variable (env : ReadEnv)

/-- The turns of one `on_read`. -/
def turnsTaken : List Round :=
  match env.recv with
  | .received k => turns env.rounds k.length 0 k.length
  | _ => []

/-- The plaintext chunks `SSL_read` delivers during one `on_read`. -/
def plain : List Chunk := env.turnsTaken.flatMap Round.plain

/-- The ciphertext chunks drained during one `on_read`. -/
def drains : List Chunk := env.turnsTaken.flatMap Round.drains

end ReadEnv

/-- The ciphertext chunks of the encryption loop with `pending` bytes to
encrypt. -/
def writesDrained : ℤ → List WriteCall → List Chunk
  | _, [] => []
  | pending, w :: ws =>
      if 0 < pending then
        if 0 < w.ret then
          w.wbio.chunks ++
            (if !w.wbio.shouldRetry then []
            else if getSslstatus w.error = .fail then []
            else if w.wbio.last = 0 then []
            else writesDrained (pending - w.ret) ws)
        else if getSslstatus w.error = .fail then []
        else if w.ret = 0 then []
        else writesDrained pending ws
      else []

/-- The exit code after one `SSL_write` and its drain, where the loop ends there. -/
def WriteCall.code (w : WriteCall) : Option ℤ :=
  if 0 < w.ret then
    if !w.wbio.shouldRetry then some (-1)
    else if getSslstatus w.error = .fail then some (-1)
    else if w.wbio.last = 0 then some 0
    else none
  else if getSslstatus w.error = .fail then some (-1)
  else if w.ret = 0 then some 0
  else none

def WriteCall.drained (w : WriteCall) : List Chunk := if 0 < w.ret then w.wbio.chunks else []

/-- With something to encrypt, the loop drains this turn's chunks and goes on if
it does not end here. -/
theorem writesDrained_turn {pending : ℤ} (w : WriteCall) (ws : List WriteCall)
    (hpending : 0 < pending) :
    writesDrained pending (w :: ws) =
      w.drained ++
        match w.code with
        | some _ => []
        | none => writesDrained (pending - max w.ret 0) ws := by
  unfold WriteCall.drained WriteCall.code
  rw [writesDrained, if_pos hpending]
  by_cases hret : 0 < w.ret
  · rw [if_pos hret, if_pos hret, if_pos hret, max_eq_left hret.le]
    split_ifs <;> rfl
  · rw [if_neg hret, if_neg hret, if_neg hret, max_eq_right (not_lt.mp hret), sub_zero]
    split_ifs <;> rfl

/-- The ciphertext chunks drained during one `on_write`, `pending` being the
plaintext there is to encrypt. -/
def WriteEnv.drains (env : WriteEnv) (pending : ℤ) : Side → List Chunk
  | .client => if env.initFinished then writesDrained pending env.writes else []
  | .backend =>
      if env.initFinished then writesDrained pending env.writes
      else env.handshake.drains ++
        (if env.handshake.code.isNone then writesDrained pending env.writes else [])

namespace SslConn

variable {c c' c'' : SslConn} (grow : PlainGrowth)

/-- What lies between two moments of a callback. -/
structure Moved (grow : PlainGrowth) (c c' : SslConn) (ops : List SysOp)
    (ps ds : List Chunk) : Prop where
  plain : c'.plainBufferManager = .copyChunks grow c.plainBufferManager ps
  writing : c'.writingBufferManager = c.writingBufferManager.queueChunks ds
  decrypted : c'.streams.decrypted = c.streams.decrypted ++ chunkBytes ps
  drained : c'.streams.drained = c.streams.drained ++ chunkBytes ds
  queued : c'.streams.queued = c.streams.queued
  sent : c'.streams.sent = c.streams.sent
  isClosed : c'.isClosed = c.isClosed
  events : c'.events = c.events
  io : c'.io = c.io ++ ops

theorem Moved.refl (grow : PlainGrowth) (c : SslConn) : Moved grow c c [] [] [] := by
  constructor <;> simp

theorem Moved.trans {grow : PlainGrowth} {ops ops' : List SysOp} {ps ps' ds ds' : List Chunk}
    (h : Moved grow c c' ops ps ds) (g : Moved grow c' c'' ops' ps' ds') :
    Moved grow c c'' (ops ++ ops') (ps ++ ps') (ds ++ ds') where
  plain := by rw [g.plain, h.plain, BufferManager.copyChunks_append]
  writing := by rw [g.writing, h.writing, BufferManager.queueChunks_append]
  decrypted := by rw [g.decrypted, h.decrypted, chunkBytes_append, List.append_assoc]
  drained := by rw [g.drained, h.drained, chunkBytes_append, List.append_assoc]
  queued := g.queued.trans h.queued
  sent := g.sent.trans h.sent
  isClosed := g.isClosed.trans h.isClosed
  events := g.events.trans h.events
  io := by rw [g.io, h.io, List.append_assoc]

/-! ## Draining and shaking hands -/

theorem drainChunk_moved (c : SslConn) (k : Chunk) :
    Moved grow c (c.drainChunk k) [] [] [k] := by
  constructor <;> simp [drainChunk, queueEncryptedBytes, BufferManager.queueChunks]

theorem drainChunks_moved (ks : List Chunk) :
    ∀ c : SslConn, Moved grow c (ks.foldl drainChunk c) [] [] ks := by
  induction ks with
  | nil => exact Moved.refl grow
  | cons k ks ih => exact fun c => (drainChunk_moved grow c k).trans (ih _)

/-- A part of the state that neither draining nor the end of a handshake
touches. -/
structure Untouched {α : Type*} (part : SslConn → α) : Prop where
  drain : ∀ c k, part (c.drainChunk k) = part c
  done : ∀ c, part { c with isSslHandshakeDone := true } = part c

theorem Untouched.drainWbio {α : Type*} {part : SslConn → α} (h : Untouched part)
    (c : SslConn) (d : WbioReads) : part (c.drainWbio d) = part c := by
  unfold SslConn.drainWbio
  induction d.chunks generalizing c with
  | nil => rfl
  | cons k ks ih => exact (ih (c.drainChunk k)).trans (h.drain c k)

theorem Untouched.handshake {α : Type*} {part : SslConn → α} (h : Untouched part)
    (c : SslConn) (call : HandshakeCall) : part (c.handshake call).1 = part c := by
  have hdrain := h.drainWbio c call.wbio
  unfold SslConn.handshake
  cases getSslstatus call.error with
  | wantIo =>
      simp only
      split
      · exact hdrain
      · split
        · exact hdrain
        · exact (h.done _).trans hdrain
  | fail => rfl
  | ok =>
      simp only
      split
      · rfl
      · exact h.done c

/-- The plaintext on its way to OpenSSL is as it was. -/
structure EncryptKept (c c' : SslConn) : Prop where
  manager : c'.encryptBufferManager = c.encryptBufferManager
  encrypted : c'.streams.encrypted = c.streams.encrypted
  queued : c'.streams.queued = c.streams.queued

theorem untouched_encryptManager : Untouched (·.encryptBufferManager) :=
  ⟨fun _ _ => rfl, fun _ => rfl⟩

theorem untouched_encrypted : Untouched (·.streams.encrypted) :=
  ⟨fun _ _ => rfl, fun _ => rfl⟩

theorem untouched_queued : Untouched (·.streams.queued) :=
  ⟨fun _ _ => rfl, fun _ => rfl⟩

theorem drainWbio_encrypt (c : SslConn) (d : WbioReads) : EncryptKept c (c.drainWbio d) where
  manager := untouched_encryptManager.drainWbio c d
  encrypted := untouched_encrypted.drainWbio c d
  queued := untouched_queued.drainWbio c d

theorem drainWbio_moved (c : SslConn) (d : WbioReads) :
    Moved grow c (c.drainWbio d) [] [] d.chunks :=
  drainChunks_moved grow d.chunks c

@[simp] theorem handshake_snd (c : SslConn) (h : HandshakeCall) :
    (c.handshake h).2 = h.code := by
  unfold handshake HandshakeCall.code
  cases getSslstatus h.error with
  | wantIo =>
      simp only
      split
      · rfl
      · split <;> rfl
  | fail => rfl
  | ok =>
      simp only
      split <;> rfl

theorem handshake_moved (c : SslConn) (h : HandshakeCall) :
    Moved grow c (c.handshake h).1 [] [] h.drains := by
  have hdrain := drainWbio_moved grow c h.wbio
  unfold handshake HandshakeCall.drains
  cases hs : getSslstatus h.error with
  | wantIo =>
      simp only [if_true]
      split
      · exact hdrain
      · split
        · exact hdrain
        · exact { hdrain with }
  | fail => exact Moved.refl grow c
  | ok =>
      simp only [reduceCtorEq, if_false]
      split
      · exact Moved.refl grow c
      · exact { Moved.refl grow c with }

theorem handshake_encrypt (c : SslConn) (h : HandshakeCall) :
    EncryptKept c (c.handshake h).1 where
  manager := untouched_encryptManager.handshake c h
  encrypted := untouched_encrypted.handshake c h
  queued := untouched_queued.handshake c h

/-! ## The read callbacks -/

theorem copyPlain_moved (c : SslConn) (k : Chunk) :
    Moved grow c (c.copyPlain grow k) [] [k] [] := by
  constructor <;> simp [copyPlain]

theorem copyPlains_moved (ks : List Chunk) :
    ∀ c : SslConn, Moved grow c (ks.foldl (fun c k => c.copyPlain grow k) c) [] ks [] := by
  induction ks with
  | nil => exact Moved.refl grow
  | cons k ks ih => exact fun c => (copyPlain_moved grow c k).trans (ih _)

@[simp] theorem sslReads_snd (c : SslConn) (r : ReadCalls) :
    (c.sslReads grow r).2 = r.code := by
  unfold sslReads ReadCalls.code
  cases getSslstatus r.error <;> rfl

theorem sslReads_moved (c : SslConn) (r : ReadCalls) :
    Moved grow c (c.sslReads grow r).1 [] r.chunks r.drains := by
  have hcopy := copyPlains_moved grow r.chunks c
  unfold sslReads ReadCalls.drains
  cases hs : getSslstatus r.error with
  | wantIo => simpa using hcopy.trans (drainWbio_moved grow _ r.wbio)
  | fail => exact hcopy
  | ok => exact hcopy

theorem Untouched.roundBody {α : Type*} {part : SslConn → α} (h : Untouched part)
    (hcopy : ∀ c k, part (c.copyPlain grow k) = part c) (c : SslConn) (r : Round) :
    part (c.roundBody grow r).1 = part c := by
  have hreads : ∀ c : SslConn, part (c.sslReads grow r.reads).1 = part c := by
    intro c
    have hcopies : part (r.reads.chunks.foldl (fun c k => c.copyPlain grow k) c) = part c := by
      induction r.reads.chunks generalizing c with
      | nil => rfl
      | cons k ks ih => exact (ih _).trans (hcopy c k)
    unfold SslConn.sslReads
    cases getSslstatus r.reads.error with
    | wantIo => exact (h.drainWbio _ _).trans hcopies
    | fail => exact hcopies
    | ok => exact hcopies
  have hshake := h.handshake c r.handshake
  unfold SslConn.roundBody
  split
  · exact hreads c
  · rcases hcall : c.handshake r.handshake with ⟨c₁, _ | code⟩ <;> rw [hcall] at hshake
    · exact (hreads c₁).trans hshake
    · exact hshake

theorem feed_moved (c : SslConn) (base n : ℤ) : Moved grow c (c.feed base n) [] [] [] := by
  constructor <;> simp [feed]

@[simp] theorem roundBody_snd (c : SslConn) (r : Round) :
    (c.roundBody grow r).2 = r.code := by
  unfold roundBody Round.code
  split
  · simp
  · have hcode := handshake_snd c r.handshake
    split <;> rename_i heq <;> rw [heq] at hcode <;> simp [← hcode]

theorem roundBody_moved (c : SslConn) (r : Round) :
    Moved grow c (c.roundBody grow r).1 [] r.plain r.drains := by
  unfold roundBody Round.plain Round.drains Round.reading
  cases hinit : r.initFinished with
  | true => simpa using sslReads_moved grow c r.reads
  | false =>
      have hcode := handshake_snd c r.handshake
      have hmoved := handshake_moved grow c r.handshake
      rcases hshake : c.handshake r.handshake with ⟨c₁, _ | code⟩ <;>
        rw [hshake] at hcode hmoved <;> simp only [← hcode, Bool.false_eq_true, if_false]
      · -- the handshake is finished, and the reads follow it
        simpa using hmoved.trans (sslReads_moved grow c₁ r.reads)
      · simpa using hmoved

theorem proccessSslBytes_moved (rounds : ℕ → Round) :
    ∀ (fuel i : ℕ) (base remaining : ℤ) (c : SslConn),
      Moved grow c (proccessSslBytes grow rounds fuel i base remaining c).1 []
        ((turns rounds fuel i remaining).flatMap Round.plain)
        ((turns rounds fuel i remaining).flatMap Round.drains) := by
  intro fuel
  induction fuel with
  | zero => exact fun _ _ _ c => Moved.refl grow c
  | succ fuel ih =>
      intro i base remaining c
      unfold proccessSslBytes turns
      split
      · simp only
        split
        · exact Moved.refl grow c
        · -- `BIO_write` takes the next `n` bytes, and OpenSSL goes on with them
          set n := min (rounds i).bioWrite remaining
          have hcode := roundBody_snd grow (c.feed base n) (rounds i)
          have hturn := (feed_moved grow c base n).trans
            (roundBody_moved grow (c.feed base n) (rounds i))
          rcases hbody : (c.feed base n).roundBody grow (rounds i) with ⟨c₁, _ | code⟩ <;>
            rw [hbody] at hcode hturn <;> simp only [← hcode]
          · simpa using hturn.trans (ih (i + 1) (base + n) (remaining - n) c₁)
          · simpa using hturn
      · exact Moved.refl grow c

/-- **One `on_read`**: one `recv`, and then what OpenSSL makes of the bytes. -/
theorem onReadEvent_moved (c : SslConn) (env : ReadEnv) :
    Moved grow c (c.onReadEvent grow env).1 [.recv] env.plain env.drains := by
  unfold onReadEvent ReadEnv.plain ReadEnv.drains ReadEnv.turnsTaken
  cases env.recv with
  | received k =>
      simp only
      -- the state in which the received bytes are handed on
      set c₁ : SslConn := { c with
        readBufferManager := _, streams := { c.streams with received := _ }, io := _ } with hc₁
      have hrecv : Moved grow c c₁ [.recv] [] [] := by
        constructor <;> simp [hc₁]
      have hloop := hrecv.trans
        (proccessSslBytes_moved grow env.rounds k.length 0 0 k.length c₁)
      exact { hloop with }
  | endOfStream => constructor <;> simp
  | wouldBlock => constructor <;> simp
  | error => constructor <;> simp

theorem onReadEvent_snd (c : SslConn) (env : ReadEnv) :
    (c.onReadEvent grow env).2 = readSocketNonBlock env.recv := by
  unfold onReadEvent
  cases env.recv <;> rfl

/-! ## The write callbacks -/

def encryptIoReq : Side → SslConn → WriteEnv → Except Fault (SslConn × ℤ)
  | .client => clientEncryptIoReq
  | .backend => backendEncryptIoReq

theorem takeEncrypted_moved (c : SslConn) (n : ℤ) :
    Moved grow c (c.takeEncrypted n) [] [] [] := by
  constructor <;> simp [takeEncrypted]

theorem takeEncrypted_drainWbio_ptr (c : SslConn) (n : ℤ) (d : WbioReads) :
    ((c.takeEncrypted n).drainWbio d).encryptBufferManager.currentBufferPtr =
      c.encryptBufferManager.currentBufferPtr - n := by
  rw [(drainWbio_encrypt _ d).manager]
  simp [takeEncrypted]

/-- The state after one `SSL_write` and its drain. -/
def afterWrite (c : SslConn) (w : WriteCall) : SslConn :=
  if 0 < w.ret then (c.takeEncrypted w.ret).drainWbio w.wbio else c

theorem encryptLoop_turn (w : WriteCall) (ws : List WriteCall)
    (hpending : 0 < c.encryptBufferManager.currentBufferPtr) :
    encryptLoop (w :: ws) c =
      match w.code with
      | some code => .ok (c.afterWrite w, code)
      | none => encryptLoop ws (c.afterWrite w) := by
  unfold afterWrite WriteCall.code
  rw [encryptLoop, if_pos hpending]
  by_cases hret : 0 < w.ret
  · rw [if_pos hret, if_pos hret, if_pos hret]
    simp only
    -- the three ways out, and the next turn
    split
    · rfl
    · split
      · rfl
      · split <;> rfl
  · rw [if_neg hret, if_neg hret, if_neg hret]
    split
    · rfl
    · split <;> rfl

theorem encryptLoop_idle (ws : List WriteCall)
    (hidle : ¬ 0 < c.encryptBufferManager.currentBufferPtr) :
    encryptLoop ws c = .ok (c, 0) := by
  cases ws with
  | nil => rw [encryptLoop, if_neg hidle]
  | cons w ws => rw [encryptLoop, if_neg hidle]

theorem afterWrite_ptr (c : SslConn) (w : WriteCall) :
    (c.afterWrite w).encryptBufferManager.currentBufferPtr =
      c.encryptBufferManager.currentBufferPtr - max w.ret 0 := by
  unfold afterWrite
  split
  · rw [takeEncrypted_drainWbio_ptr]
    omega
  · omega

theorem afterWrite_moved (c : SslConn) (w : WriteCall) :
    Moved grow c (c.afterWrite w) [] [] w.drained := by
  unfold afterWrite WriteCall.drained
  split
  · simpa using (takeEncrypted_moved grow c w.ret).trans
      (drainWbio_moved grow (c.takeEncrypted w.ret) w.wbio)
  · exact Moved.refl grow c

theorem encryptLoop_moved {code : ℤ} : ∀ {ws : List WriteCall} {c c' : SslConn},
    encryptLoop ws c = .ok (c', code) →
      Moved grow c c' [] [] (writesDrained c.encryptBufferManager.currentBufferPtr ws)
  | [], c, c', h => by
      unfold encryptLoop at h
      split at h
      · cases h
      · cases h
        exact Moved.refl grow c
  | w :: ws, c, c', h => by
      by_cases hpending : 0 < c.encryptBufferManager.currentBufferPtr
      · have hturn := afterWrite_moved grow c w
        rw [encryptLoop_turn w ws hpending] at h
        rw [writesDrained_turn w ws hpending]
        cases hcode : w.code with
        | some stop =>
            rw [hcode] at h
            cases h
            simpa using hturn
        | none =>
            rw [hcode] at h
            have hrest := encryptLoop_moved h
            rw [afterWrite_ptr] at hrest
            simpa using hturn.trans hrest
      · rw [encryptLoop_idle _ hpending] at h
        rw [writesDrained, if_neg hpending]
        cases h
        exact Moved.refl grow c

theorem encryptIoReq_moved {side : Side} {env : WriteEnv} {code : ℤ}
    (h : encryptIoReq side c env = .ok (c', code)) :
    Moved grow c c' [] [] (env.drains c.encryptBufferManager.currentBufferPtr side) := by
  cases side with
  | client =>
      simp only [encryptIoReq, clientEncryptIoReq, WriteEnv.drains] at h ⊢
      cases hinit : env.initFinished with
      | true => simpa using encryptLoop_moved grow (by simpa [hinit] using h)
      | false =>
          rw [hinit] at h
          cases h
          exact Moved.refl grow c
  | backend =>
      simp only [encryptIoReq, backendEncryptIoReq, WriteEnv.drains] at h ⊢
      cases hinit : env.initFinished with
      | true => simpa using encryptLoop_moved grow (by simpa [hinit] using h)
      | false =>
          have hcode := handshake_snd c env.handshake
          have hptr := (handshake_encrypt c env.handshake).manager
          have hmoved := handshake_moved grow c env.handshake
          simp only [hinit, Bool.not_false, if_true] at h
          rcases hshake : c.handshake env.handshake with ⟨c₁, _ | stop⟩ <;>
            rw [hshake] at hcode hptr hmoved h <;> simp only [← hcode]
          · have hloop := encryptLoop_moved grow h
            rw [hptr] at hloop
            simpa using hmoved.trans hloop
          · cases h
            simpa using hmoved

/-- There is ciphertext to send once a request of `nbytes` has been encrypted. -/
def CiphertextDue (c : SslConn) (side : Side) (env : WriteEnv) (nbytes : ℤ) : Prop :=
  0 < c.writingBufferManager.currentBufferPtr +
    (chunkBytes (env.drains (c.encryptBufferManager.currentBufferPtr + nbytes) side)).length

instance (c : SslConn) (side : Side) (env : WriteEnv) (nbytes : ℤ) :
    Decidable (c.CiphertextDue side env nbytes) := by
  unfold CiphertextDue
  infer_instance

/-- **One `on_write`**: the request is queued and encrypted, and what is then
pending, if anything, is handed to `send`. -/
theorem onWriteEvent_cases {side : Side} {req : WriteIoReq} {env : WriteEnv} {code : ℤ}
    (h : c.onWriteEvent (encryptIoReq side) req env = .ok (c', code)) :
    ∃ c₁, Moved grow (c.queueUnencryptedBytes req.bytes) c₁ [] []
        (env.drains (c.encryptBufferManager.currentBufferPtr + req.bytes.length) side) ∧
      ((¬ c.CiphertextDue side env req.bytes.length ∧ c' = c₁ ∧ code = 0) ∨
        (c.CiphertextDue side env req.bytes.length ∧
          0 < c₁.writingBufferManager.currentBufferPtr ∧
          (c', code) = c₁.flush req.sendNbytes env.send)) := by
  obtain ⟨⟨c₁, stop⟩, henc, hsend⟩ := bind_ok h
  have hmoved := encryptIoReq_moved grow henc
  have hptr : (c.queueUnencryptedBytes req.bytes).encryptBufferManager.currentBufferPtr =
      c.encryptBufferManager.currentBufferPtr + req.bytes.length :=
    BufferManager.queueBytes_ptr _ _
  rw [hptr] at hmoved
  have hdue : c.CiphertextDue side env req.bytes.length ↔
      0 < c₁.writingBufferManager.currentBufferPtr := by
    rw [hmoved.writing, BufferManager.queueChunks_ptr]
    rfl
  refine ⟨c₁, hmoved, ?_⟩
  simp only at hsend
  split at hsend
  · cases hsend
    exact Or.inl ⟨fun hcon => absurd (hdue.mp hcon) (by omega), rfl, rfl⟩
  · have hsome : 0 < c₁.writingBufferManager.currentBufferPtr := by omega
    exact Or.inr ⟨hdue.mpr hsome, hsome, (Except.ok.inj hsend).symm⟩

/-! ## Sending -/

@[simp] theorem sendPending_drained (c : SslConn) (send : SendResult) :
    (c.sendPending send).1.streams.drained = c.streams.drained := rfl

/-- The request is no longer than what it clears, so the clamp does nothing. -/
theorem sendPending_room (c : SslConn) (n : ℕ) :
    (c.sendPending (.room n)).1.writingBufferManager =
      BufferManager.consume { c.writingBufferManager with
          buffer := fill c.writingBufferManager.buffer 0
            (min (n : ℤ) c.writingBufferManager.currentBufferPtr) 0 }
        (min (n : ℤ) c.writingBufferManager.currentBufferPtr) ∧
    (c.sendPending (.room n)).2 = min (n : ℤ) c.writingBufferManager.currentBufferPtr := by
  have hle : min (n : ℤ) c.writingBufferManager.currentBufferPtr ≤
      c.writingBufferManager.currentBufferPtr := min_le_right _ _
  simp [sendPending, writeSocketNonBlockAndClearBuf, SendResult.taken, writeReq]

/-- **A send that does not fail** takes its bytes off the pending ones. -/
theorem sent_pending_room {c : SslConn} (h : c.writingBufferManager.WellSized) (n : ℕ) :
    (c.sendPending (.room n)).1.streams.sent ++
        (c.sendPending (.room n)).1.writingBufferManager.pending =
      c.streams.sent ++ c.writingBufferManager.pending := by
  have hptr := h.ptr_nonneg
  have hle : min (n : ℤ) c.writingBufferManager.currentBufferPtr ≤
      c.writingBufferManager.currentBufferPtr := min_le_right _ _
  have h0 : 0 ≤ min (n : ℤ) c.writingBufferManager.currentBufferPtr := by omega
  have hsent : (c.sendPending (.room n)).1.streams.sent =
      c.streams.sent ++ c.writingBufferManager.pending.take
        (min (n : ℤ) c.writingBufferManager.currentBufferPtr).toNat := by
    rw [BufferManager.pending, window_take _ _ (by omega)]
    rfl
  rw [hsent, (sendPending_room c n).1, BufferManager.pending_consume_cleared h0 hle,
    List.append_assoc, List.take_append_drop]

theorem wellSized_room {c : SslConn} (h : c.writingBufferManager.WellSized) (n : ℕ) :
    (c.sendPending (.room n)).1.writingBufferManager.WellSized := by
  have hptr := h.ptr_nonneg
  have hle : min (n : ℤ) c.writingBufferManager.currentBufferPtr ≤
      c.writingBufferManager.currentBufferPtr := min_le_right _ _
  rw [(sendPending_room c n).1]
  exact BufferManager.WellSized.consume ⟨h.1, h.2, h.3⟩ (by omega) hle

/-- **A send that fails** is taken for a send of fewer than no bytes: nothing is
sent, and yet more bytes are pending than before. -/
theorem sendPending_failed {c : SslConn} (h : 0 ≤ c.writingBufferManager.currentBufferPtr)
    {send : SendResult} (hfail : send.failed = true) :
    (c.sendPending send).1.streams.sent = c.streams.sent ∧
      c.writingBufferManager.pending.length <
        (c.sendPending send).1.writingBufferManager.pending.length := by
  have hcode : (c.sendPending send).2 = wouldBlock ∨ (c.sendPending send).2 = unkownError := by
    cases send with
    | room n => cases hfail
    | wouldBlock => exact Or.inl rfl
    | error => exact Or.inr rfl
  have hptr : (c.sendPending send).1.writingBufferManager.currentBufferPtr =
      c.writingBufferManager.currentBufferPtr - (c.sendPending send).2 := rfl
  refine ⟨?_, ?_⟩
  · cases send with
    | room n => cases hfail
    | wouldBlock => simp [sendPending, SendResult.taken]
    | error => simp [sendPending, SendResult.taken]
  · simp only [BufferManager.pending, window_length, hptr]
    rcases hcode with hcode | hcode <;> rw [hcode] <;>
      simp only [wouldBlock, unkownError] <;> omega

end SslConn
end Zroxy
