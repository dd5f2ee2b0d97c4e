import Zroxy.Events.SslEffects

/-!
# What a read event leaves alone

A read event works on the read buffer and the plain buffer, on the ciphertext
that is to be sent, and on the streams of these. `Unread part` says that a part
of the state is nothing of it, step by step; a whole read event then leaves the
part as it is (`Unread.onReadEvent`).
-/

namespace Zroxy

open OffsetMemory

namespace SslConn

variable {α : Type*} {part : SslConn → α}

/-- A part of the state that no step of a read event touches. -/
structure Unread (part : SslConn → α) : Prop extends Untouched part where
  copy : ∀ grow c k, part (c.copyPlain grow k) = part c
  feed : ∀ c base n, part (c.feed base n) = part c
  buffer : ∀ c rb, part { c with readBufferManager := rb } = part c
  receive : ∀ c received io,
    part { c with streams := { c.streams with received := received }, io := io } = part c

theorem Unread.proccessSslBytes (h : Unread part) (grow : PlainGrowth) (rounds : ℕ → Round)
    (fuel i : ℕ) (base remaining : ℤ) (c : SslConn) :
    part (SslConn.proccessSslBytes grow rounds fuel i base remaining c).1 = part c := by
  induction fuel generalizing i base remaining c with
  | zero => rfl
  | succ fuel ih =>
      unfold SslConn.proccessSslBytes
      split
      · simp only
        split
        · rfl
        · set n := min (rounds i).bioWrite remaining
          have hturn : part ((c.feed base n).roundBody grow (rounds i)).1 = part c :=
            (h.roundBody grow (h.copy grow) _ _).trans (h.feed c base n)
          rcases hbody : (c.feed base n).roundBody grow (rounds i) with ⟨c₁, _ | code⟩ <;>
            rw [hbody] at hturn
          · exact (ih _ _ _ c₁).trans hturn
          · exact hturn
      · rfl

/-- **A read event** leaves the part as it is, whatever the kernel and OpenSSL
answer. -/
theorem Unread.onReadEvent (h : Unread part) (grow : PlainGrowth) (c : SslConn) (env : ReadEnv) :
    part (c.onReadEvent grow env).1 = part c := by
  have hoffered : ∀ rb received io, part { c with
      readBufferManager := rb
      streams := { c.streams with received := received }
      io := io } = part c :=
    fun rb received io => (h.receive { c with readBufferManager := rb } received io).trans
      (h.buffer c rb)
  unfold SslConn.onReadEvent
  cases env.recv with
  | received k =>
      refine (h.buffer _ _).trans ?_
      exact (h.proccessSslBytes grow env.rounds _ _ _ _ _).trans (hoffered _ _ _)
  | endOfStream => exact hoffered _ c.streams.received _
  | wouldBlock => exact hoffered _ c.streams.received _
  | error => exact hoffered _ c.streams.received _

end SslConn
end Zroxy
