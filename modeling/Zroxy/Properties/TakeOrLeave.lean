import Zroxy.Events.ProxyEffects
import Zroxy.Parsers.HostRewriting

/-!
# `on_write` takes what it says it takes

The caller of `on_write` drops as many bytes of its buffer as the result says,
and offers the others again. So a positive result `r` has to mean that the first
`r` bytes of the request were taken over, and any other result that none were.

A plain side returns what `send` has accepted. An SSL side queues the whole
request before it knows anything, and its result is about the ciphertext: it is
the size of the request only when `send` was reached and accepted something. A
backend queues what the Host rewriting has made of the request, with as many
bytes as it had: bytes of the request that had to make room are dropped.
`takeOrLeave_iff` says when result and queue agree, for all four callbacks at
once.
-/

namespace Zroxy

open OffsetMemory Runs

namespace Conn

/-- The bytes a side has taken over: a plain side has sent them, an SSL side has
queued them for encryption. -/
def takenOver : Conn → List Byte
  | .plain c => c.streams.sent
  | .ssl c => c.streams.queued

/-- `on_write` returned `r`, and took over the first `r` bytes of its request;
none if `r` is not positive. -/
def TakeOrLeave (req : WriteIoReq) (c c' : Conn) (r : ℤ) : Prop :=
  r ≤ req.sendNbytes ∧ c'.takenOver = c.takenOver ++ req.bytes.take r.toNat

/-- A plain side is asked to clear no fewer bytes than `send` takes; an SSL side
is offered nothing, or has ciphertext to send of which the socket takes some, and
a backend then is offered no request whose Host it changes. -/
def SettlesAll (side : Side) (req : WriteIoReq) (env : WriteEnv) : Conn → Prop
  | .plain _ => env.send.taken req ≤ req.clearNbytes ∨ env.send.taken req = 0
  | .ssl c => req.sendNbytes = 0 ∨
      (c.CiphertextDue side env req.bytes.length ∧ env.send.takesAny = true ∧
        (side = .backend → HostUntouched req.bytes))

end Conn

namespace PlainConn

variable {c : PlainConn} {req : WriteIoReq} {env : WriteEnv}

theorem onWriteEvent_sent (c : PlainConn) (h : 0 ≤ req.sendNbytes) :
    (c.onWriteEvent req env).1.streams.sent =
      c.streams.sent ++ req.bytes.take (env.send.taken req).toNat := by
  obtain ⟨h0, hle⟩ := env.send.taken_bounds h
  show c.streams.sent ++ window req.buffer 0 (env.send.taken req).toNat = _
  rw [WriteIoReq.bytes, window_take _ _ (by omega)]

/-- **A plain `on_write`** returns what it has sent, unless it sends more than it
may clear. -/
theorem takeOrLeave_plain_iff (c : PlainConn) (h : 0 ≤ req.sendNbytes) :
    Conn.TakeOrLeave req (.plain c) (.plain (c.onWriteEvent req env).1)
        (c.onWriteEvent req env).2.2 ↔
      env.send.taken req ≤ req.clearNbytes ∨ env.send.taken req = 0 := by
  obtain ⟨h0, hle⟩ := env.send.taken_bounds h
  have hcode := writeSocketNonBlockAndClearBuf_snd { req with reqFd := c.sockFd } env.send
  have htaken : env.send.taken { req with reqFd := c.sockFd } = env.send.taken req := by
    cases env.send <;> rfl
  rw [htaken] at hcode
  have hlen : req.bytes.length = req.sendNbytes.toNat := window_length _ _ _
  have hsame : Conn.TakeOrLeave req (.plain c) (.plain (c.onWriteEvent req env).1)
      (c.onWriteEvent req env).2.2 ↔ (c.onWriteEvent req env).2.2 ≤ req.sendNbytes ∧
        min (env.send.taken req).toNat req.bytes.length =
          min (c.onWriteEvent req env).2.2.toNat req.bytes.length := by
    rw [← List.take_eq_take_iff]
    refine and_congr_right fun _ => ?_
    constructor
    · intro htake
      exact List.append_cancel_left ((onWriteEvent_sent c h).symm.trans htake)
    · intro htake
      exact (onWriteEvent_sent c h).trans (congrArg _ htake)
  rw [hsame, hlen]
  change (c.onWriteEvent req env).2.2 = min (env.send.taken req) req.clearNbytes ∨
    ((c.onWriteEvent req env).2.2 < 0 ∧ env.send.taken req = 0) at hcode
  rcases hcode with hcode | ⟨hneg, hnone⟩
  · rw [hcode]
    omega
  · rw [hnone]
    omega

end PlainConn

namespace Conn

variable {c c' : Conn} {side : Side} {req : WriteIoReq} {env : WriteEnv} {memory : Mem Byte}
  {r : ℤ}

theorem queued_eq_iff {req' : WriteIoReq} (h : 0 ≤ req.sendNbytes)
    (hclient : side = .client → req' = req)
    (hbackend : side = .backend → rewriteHost req = .ok req') :
    req'.bytes = req.bytes ↔ (side = .backend → HostUntouched req.bytes) := by
  cases side with
  | client =>
      rw [hclient rfl]
      exact iff_of_true rfl nofun
  | backend =>
      have hrewritten := rewriteHost_bytes h
      rw [hbackend rfl] at hrewritten
      rw [← hostRewritten_eq_iff, ← hrewritten]
      simp [Except.map]

/-- **An SSL `on_write`** queues as many bytes as its request has. -/
theorem takeOrLeave_ssl_iff {s : SslConn} (h : 0 ≤ req.sendNbytes)
    (hwrite : (Conn.ssl s).onWrite side req env = .ok (c', memory, r)) :
    TakeOrLeave req (.ssl s) c' r ↔ SettlesAll side req env (.ssl s) := by
  obtain ⟨req', hlen, -, hclient, hbackend, hqueued, hcode⟩ := onWrite_ssl_queued hwrite
  have hbytes : req'.bytes.length = req.bytes.length := by
    rw [WriteIoReq.bytes, window_length, hlen, WriteIoReq.bytes, window_length]
  have hsize : req.bytes.length = req.sendNbytes.toNat := window_length _ _ _
  obtain ⟨s', rfl⟩ : ∃ s', c' = .ssl s' := by
    obtain ⟨-, -, -, htype, -⟩ := onWrite_frame hwrite
    exact eq_ssl htype
  -- all of it is queued, so the result has to be all of it, and it the request
  have hall : TakeOrLeave req (.ssl s) (.ssl s') r ↔
      r ≤ req.sendNbytes ∧ req.sendNbytes.toNat ≤ r.toNat ∧ req'.bytes = req.bytes := by
    refine and_congr_right fun _ => ?_
    constructor
    · intro htake
      have hsame : req'.bytes = req.bytes.take r.toNat :=
        List.append_cancel_left (hqueued.symm.trans htake)
      have hlen' := congrArg List.length hsame
      rw [List.length_take] at hlen'
      have hle : req.bytes.length ≤ r.toNat := by omega
      rw [List.take_of_length_le hle] at hsame
      exact ⟨hsize ▸ hle, hsame⟩
    · rintro ⟨hle, hsame⟩
      rw [List.take_of_length_le (hsize ▸ hle), ← hsame]
      exact hqueued
  rw [hall, queued_eq_iff h hclient hbackend]
  show _ ↔ req.sendNbytes = 0 ∨ ((Conn.ssl s).Sends side env req.bytes.length ∧
    env.send.takesAny = true ∧ (side = .backend → HostUntouched req.bytes))
  by_cases hempty : req.sendNbytes = 0
  · -- no bytes are no request
    have hnone : req.bytes = [] := List.length_eq_zero_iff.mp (by omega)
    refine iff_of_true ⟨?_, by omega, fun _ => ?_⟩ (Or.inl hempty)
    · split at hcode <;> omega
    · rw [hnone]
      rintro parsed ⟨⟩
  · rw [or_iff_right hempty, ← and_assoc, ← and_assoc]
    refine and_congr_left fun _ => ?_
    split at hcode
    · exact iff_of_true ⟨hcode.le, by rw [hcode]⟩ ‹_›
    · exact iff_of_false (by omega) ‹_›

/-- **Take or leave, exactly.** An `on_write` that returns `r` has taken over the
first `r` bytes of the request it was given and no others if and only if it settles
all of it. -/
theorem takeOrLeave_iff (h : 0 ≤ req.sendNbytes)
    (hwrite : c.onWrite side req env = .ok (c', memory, r)) :
    TakeOrLeave req c c' r ↔ SettlesAll side req env c := by
  cases c with
  | plain c =>
      cases hwrite
      exact c.takeOrLeave_plain_iff h
  | ssl s => exact takeOrLeave_ssl_iff h hwrite

/-- A byte for a client whose handshake is not finished. -/
def earlyByte : WriteIoReq := ⟨0, fun _ => 65, 1, 1⟩

def unfinished : WriteEnv := ⟨false, ⟨.none, .empty, false⟩, [], .wouldBlock⟩

theorem takeOrLeave_earlyByte_iff :
    ∃ c' memory r, (Conn.ssl (makeSslConn (fun _ _ => 0) 4)).onWrite .client earlyByte
        unfinished = .ok (c', memory, r) ∧
      (TakeOrLeave earlyByte (.ssl (makeSslConn (fun _ _ => 0) 4)) c' r ↔
        SettlesAll .client earlyByte unfinished (.ssl (makeSslConn (fun _ _ => 0) 4))) :=
  ⟨_, _, _, rfl, takeOrLeave_iff Int.one_nonneg rfl⟩

/-- The byte is queued, and the caller is told that nothing was taken. -/
theorem early_byte_is_queued_for_nothing :
    ¬ ∀ (c c' : Conn) (side : Side) (req : WriteIoReq) (env : WriteEnv) (memory : Mem Byte)
        (r : ℤ), 0 ≤ req.sendNbytes → c.onWrite side req env = .ok (c', memory, r) →
      TakeOrLeave req c c' r := by
  intro h
  obtain ⟨-, htake⟩ := h (.ssl (makeSslConn (fun _ _ => 0) 4)) _ .client earlyByte
    unfinished _ _ Int.one_nonneg rfl
  exact absurd htake (by decide)

end Conn
end Zroxy
