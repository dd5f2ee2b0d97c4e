import Zroxy.Events.SslEffects

/-!
# When the encryption loop ends

`encryptLoop` is a function of the answers that OpenSSL gives. Here they come as
an unending stream: each `SSL_write` takes some bytes, fails for good, or asks
for I/O, and since nothing is written to `rbio` inside the loop, one that asks
for I/O is followed by others that do.

A call that takes bytes makes the pending plaintext shorter, and one that fails
leaves the loop. The third kind does neither: the test behind the drain is
`n == 0`, and `n` is below zero. So the loop ends exactly when it makes no such
call.
-/

namespace Zroxy

open OffsetMemory Runs

namespace WriteCall

/-- `SSL_write` returned a value below zero and asks for I/O. -/
def Asks (w : WriteCall) : Prop := w.ret < 0 ∧ getSslstatus w.error = .wantIo

theorem Asks.code {w : WriteCall} (h : w.Asks) : w.code = none := by
  obtain ⟨hret, hstatus⟩ := h
  have hne : w.ret ≠ 0 := by omega
  rw [WriteCall.code, if_neg (by omega), hstatus, if_neg (by rintro ⟨⟩), if_neg hne]

theorem code_of_fail {w : WriteCall} (h : getSslstatus w.error = .fail) : w.code ≠ none := by
  unfold WriteCall.code
  rw [if_pos h, if_pos h]
  split
  · split <;> rintro ⟨⟩
  · rintro ⟨⟩

end WriteCall

/-- How OpenSSL answers one `SSL_write` after the other. -/
structure WriteAnswers (ws : Stream' WriteCall) : Prop where
  outcome : ∀ i, 0 < (ws.get i).ret ∨ getSslstatus (ws.get i).error = .fail ∨ (ws.get i).Asks
  keeps : ∀ i j, i ≤ j → (ws.get i).Asks → (ws.get j).Asks

theorem WriteAnswers.tail {ws : Stream' WriteCall} (h : WriteAnswers ws) :
    WriteAnswers ws.tail where
  outcome i := h.outcome (i + 1)
  keeps i j hij := h.keeps (i + 1) (j + 1) (by omega)

/-- The plaintext that is left for the `i`-th `SSL_write`. -/
def pendingBefore (pending : ℤ) (ws : Stream' WriteCall) (i : ℕ) : ℤ :=
  pending - ((ws.take i).map fun w => max w.ret 0).sum

/-- The loop makes an `i`-th `SSL_write`: no earlier one has left it, and there
is something to encrypt. -/
def MakesWrite (pending : ℤ) (ws : Stream' WriteCall) (i : ℕ) : Prop :=
  (∀ w ∈ ws.take i, w.code = none) ∧ 0 < pendingBefore pending ws i

variable {pending : ℤ} {ws : Stream' WriteCall}

theorem makesWrite_zero : MakesWrite pending ws 0 ↔ 0 < pending := by
  simp [MakesWrite, pendingBefore]

theorem makesWrite_succ (i : ℕ) :
    MakesWrite pending ws (i + 1) ↔
      ws.head.code = none ∧ MakesWrite (pending - max ws.head.ret 0) ws.tail i := by
  unfold MakesWrite pendingBefore
  rw [Stream'.take_succ, List.forall_mem_cons, List.map_cons, List.sum_cons, and_assoc,
    sub_sub]

theorem MakesWrite.pending_pos {i : ℕ} (h : MakesWrite pending ws i) : 0 < pending := by
  induction i generalizing pending ws with
  | zero => exact makesWrite_zero.mp h
  | succ i ih =>
      have hrest := ih ((makesWrite_succ i).mp h).2
      have hmax : 0 ≤ max ws.head.ret 0 := le_max_right _ _
      omega

namespace SslConn

variable {c : SslConn}

theorem encryptLoop_nil (hpending : 0 < c.encryptBufferManager.currentBufferPtr)
    (r : SslConn × ℤ) : encryptLoop [] c ≠ .ok r := by
  rw [encryptLoop, if_pos hpending]
  rintro ⟨⟩

/-- **One turn** that does not leave the loop passes the question on. -/
theorem ends_turn (hpending : 0 < c.encryptBufferManager.currentBufferPtr)
    (hcode : ws.head.code = none) :
    Ends (encryptLoop · c) ws ↔ Ends (encryptLoop · (c.afterWrite ws.head)) ws.tail := by
  apply ends_iff_tail (encryptLoop_nil hpending)
  intro as
  simp only [encryptLoop_turn ws.head as hpending, hcode]

theorem not_ends_asking (hpending : 0 < c.encryptBufferManager.currentBufferPtr)
    (hasks : ∀ i, (ws.get i).Asks) : ¬ Ends (encryptLoop · c) ws := by
  rintro ⟨n, r, hr⟩
  induction n generalizing ws with
  | zero => exact encryptLoop_nil hpending r hr
  | succ n ih =>
      have hhead : ws.head.Asks := hasks 0
      have hidle : c.afterWrite ws.head = c := if_neg (by have hneg := hhead.1; omega)
      simp only [Stream'.take_succ, encryptLoop_turn _ _ hpending, hhead.code, hidle] at hr
      have hasks' : ∀ i, (ws.tail.get i).Asks := fun i => hasks (i + 1)
      exact ih hasks' hr

/-- **It spins** once it has made a call that asks for I/O. -/
theorem not_ends_of_asks (hws : WriteAnswers ws) {i : ℕ}
    (hmakes : MakesWrite c.encryptBufferManager.currentBufferPtr ws i)
    (hasks : (ws.get i).Asks) : ¬ Ends (encryptLoop · c) ws := by
  have hpending := hmakes.pending_pos
  induction i generalizing c ws with
  | zero => exact not_ends_asking hpending fun j => hws.keeps 0 j (Nat.zero_le j) hasks
  | succ i ih =>
      obtain ⟨hcode, hrest⟩ := (makesWrite_succ i).mp hmakes
      rw [ends_turn hpending hcode]
      rw [← afterWrite_ptr] at hrest
      exact ih hws.tail hrest hasks hrest.pending_pos

/-- **It ends** when none of the calls it makes asks for I/O: each turn leaves
the loop or makes the plaintext shorter. -/
theorem ends_of_not_asks (hws : WriteAnswers ws)
    (hnever : ∀ i, MakesWrite c.encryptBufferManager.currentBufferPtr ws i →
      ¬ (ws.get i).Asks) : Ends (encryptLoop · c) ws := by
  -- the induction is on the pending plaintext
  generalize hlength : c.encryptBufferManager.currentBufferPtr.toNat = length
  induction length using Nat.strong_induction_on generalizing c ws with
  | _ length ih =>
      by_cases hpending : 0 < c.encryptBufferManager.currentBufferPtr
      · cases hcode : ws.head.code with
        | some code =>
            apply ends_of_head (r := (c.afterWrite ws.head, code))
            intro as
            simp only [encryptLoop_turn _ _ hpending, hcode]
        | none =>
            have hret : 0 < ws.head.ret := by
              rcases hws.outcome 0 with hret | hfail | hasks
              · exact hret
              · exact absurd hcode (WriteCall.code_of_fail hfail)
              · exact absurd hasks (hnever 0 (makesWrite_zero.mpr hpending))
            have hptr := afterWrite_ptr c ws.head
            rw [ends_turn hpending hcode]
            apply ih _ ?_ hws.tail ?_ rfl
            · omega
            · intro i hmakes
              rw [hptr] at hmakes
              exact hnever (i + 1) ((makesWrite_succ i).mpr ⟨hcode, hmakes⟩)
      · exact ⟨0, (c, 0), encryptLoop_idle _ hpending⟩

/-- **The encryption loop** ends exactly when it makes no call that asks for
I/O. -/
theorem encryptLoop_ends_iff (hws : WriteAnswers ws) :
    Ends (encryptLoop · c) ws ↔
      ∀ i, MakesWrite c.encryptBufferManager.currentBufferPtr ws i → ¬ (ws.get i).Asks := by
  constructor
  · intro hends i hmakes hasks
    exact not_ends_of_asks hws hmakes hasks hends
  · exact ends_of_not_asks hws

/-! ## The two encryption routines -/

/-- The routine comes to its loop. -/
def entersLoop : Side → WriteEnv → Bool
  | .client, env => env.initFinished
  | .backend, env => env.initFinished || env.handshake.code.isNone

/-- The routine of a side returns, when the calls of `SSL_write` come out as in
`ws` and everything else as in `env`. -/
def EncryptEnds (side : Side) (c : SslConn) (env : WriteEnv) (ws : Stream' WriteCall) : Prop :=
  Ends (fun writes => encryptIoReq side c { env with writes := writes }) ws

/-- None of the calls that the routine makes asks for I/O. -/
def NeverAsks (side : Side) (c : SslConn) (env : WriteEnv) (ws : Stream' WriteCall) : Prop :=
  entersLoop side env = true →
    ∀ i, MakesWrite c.encryptBufferManager.currentBufferPtr ws i → ¬ (ws.get i).Asks

theorem encryptEnds_outside {side : Side} {env : WriteEnv}
    (h : entersLoop side env = false) : EncryptEnds side c env ws := by
  cases side with
  | client =>
      refine ⟨0, (c, 0), ?_⟩
      change env.initFinished = false at h
      show (if (!env.initFinished) = true then _ else _) = _
      rw [h]
      rfl
  | backend =>
      obtain ⟨hinit, hcode⟩ := Bool.or_eq_false_iff.mp h
      show Ends (fun writes => backendEncryptIoReq c { env with writes := writes }) ws
      unfold backendEncryptIoReq
      have hsnd := handshake_snd c env.handshake
      rcases hshake : c.handshake env.handshake with ⟨c₁, _ | code⟩
      · rw [hshake] at hsnd
        rw [← hsnd] at hcode
        cases hcode
      · refine ⟨0, (c₁, code), ?_⟩
        simp only [hinit, hshake]
        rfl

theorem encryptEnds_inside {side : Side} {env : WriteEnv} (c : SslConn)
    (ws : Stream' WriteCall) (h : entersLoop side env = true) :
    ∃ c₁, c₁.encryptBufferManager = c.encryptBufferManager ∧
      (EncryptEnds side c env ws ↔ Ends (encryptLoop · c₁) ws) := by
  cases hinit : env.initFinished with
  | true =>
      refine ⟨c, rfl, ?_⟩
      cases side with
      | client => simp [EncryptEnds, encryptIoReq, clientEncryptIoReq, hinit]
      | backend => simp [EncryptEnds, encryptIoReq, backendEncryptIoReq, hinit]
  | false =>
      cases side with
      | client => exact absurd (hinit.symm.trans h) Bool.false_ne_true
      | backend =>
          have hsnd := handshake_snd c env.handshake
          have hkept := handshake_encrypt c env.handshake
          have hcode : env.handshake.code = none := by
            simpa [entersLoop, hinit] using h
          refine ⟨(c.handshake env.handshake).1, hkept.manager, ?_⟩
          rcases hshake : c.handshake env.handshake with ⟨c₁, code⟩
          rw [hshake, hcode] at hsnd
          obtain rfl : code = none := hsnd
          simp [EncryptEnds, encryptIoReq, backendEncryptIoReq, hinit, hshake]

/-- **When encryption ends.** For any plaintext and any answers of OpenSSL, the
routine of either side returns exactly when none of the calls of `SSL_write`
that it makes asks for I/O. -/
theorem encryptEnds_iff_neverAsks (side : Side) (c : SslConn) (env : WriteEnv)
    (ws : Stream' WriteCall) (hws : WriteAnswers ws) :
    EncryptEnds side c env ws ↔ NeverAsks side c env ws := by
  unfold NeverAsks
  cases h : entersLoop side env with
  | false => exact ⟨fun _ => nofun, fun _ => encryptEnds_outside h⟩
  | true =>
      obtain ⟨c₁, hmanager, hloop⟩ := encryptEnds_inside c ws h
      rw [hloop, encryptLoop_ends_iff hws, hmanager]
      exact ⟨fun hnever _ => hnever, fun hnever => hnever rfl⟩

/-- OpenSSL has finished the handshake, and every `SSL_write` wants to read. -/
def wantsToRead : Stream' WriteCall := Stream'.const ⟨-1, .wantRead, .empty⟩

theorem wantsToRead_asks (i : ℕ) : (wantsToRead.get i).Asks := ⟨Int.negSucc_lt_zero 0, rfl⟩

def finishedHandshake : WriteEnv := ⟨true, ⟨.none, .empty, true⟩, [], .wouldBlock⟩

/-- The law at a byte that OpenSSL wants to read before it encrypts. -/
theorem encryptEnds_iff_neverAsks_wantsToRead :
    EncryptEnds .client ((makeSslConn (fun _ _ => 0) 4).queueUnencryptedBytes [65])
        finishedHandshake wantsToRead ↔
      NeverAsks .client ((makeSslConn (fun _ _ => 0) 4).queueUnencryptedBytes [65])
        finishedHandshake wantsToRead :=
  encryptEnds_iff_neverAsks _ _ _ _
    ⟨fun i => Or.inr (Or.inr (wantsToRead_asks i)), fun _ j _ _ => wantsToRead_asks j⟩

/-- **It need not end**: one pending byte, and an OpenSSL that wants to read. -/
theorem encrypt_spins_wantsToRead :
    ¬ ∀ (side : Side) (c : SslConn) (env : WriteEnv) (ws : Stream' WriteCall),
      WriteAnswers ws → EncryptEnds side c env ws := by
  intro hends
  have hspin := hends .client ((makeSslConn (fun _ _ => 0) 4).queueUnencryptedBytes [65])
    finishedHandshake wantsToRead
    ⟨fun i => Or.inr (Or.inr (wantsToRead_asks i)), fun _ j _ _ => wantsToRead_asks j⟩
  obtain ⟨c₁, hmanager, hloop⟩ := encryptEnds_inside
    ((makeSslConn (fun _ _ => 0) 4).queueUnencryptedBytes [65]) wantsToRead
    (show entersLoop .client finishedHandshake = true from rfl)
  refine not_ends_asking ?_ wantsToRead_asks (hloop.mp hspin)
  rw [hmanager]
  decide

end SslConn
end Zroxy
