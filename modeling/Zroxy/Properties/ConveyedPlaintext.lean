import Zroxy.Properties.PieceForwarding
import Zroxy.Properties.QueuedPlaintext

/-!
# Plaintext through a whole connection

A connection with two SSL sides conveys plaintext in both directions: from
`SSL_read` on one side, through the plain buffer, the Host rewriting if it goes to
the backend, and the encryption queue of the other side, to `SSL_write`.
`Conveyed` says so of the pieces that the events have handed over (`handed`): they
and what is pending are what was decrypted, and what OpenSSL has taken or is to
take are these pieces, each as the rewriting leaves it on the way to the backend.

The rewriting keeps the number of bytes (`PassedAs.length_eq`). So where it makes
the Host longer, the last bytes of that piece are lost, and where it makes it
shorter the last ones are there twice (`hostRewritten_cases`). Apart from that no
byte is lost, doubled or moved. One event of any of the three handlers keeps that
exactly if it forwards (`conveyed_step_iff`), as long as OpenSSL takes no more
than it is offered and each decrypted chunk finds room.
-/

namespace Zroxy

open OffsetMemory Runs Forwarding

theorem Handled.queueKept {me : Side} {events : UInt32} {env : EventEnv} {c d c' d' : Conn}
    (h : Handled me events env c d c' d') (hc : c.QueueKept) (hd : d.QueueKept)
    (hssl : c.connType = .sslConn) (hsized : c.plainManager.WellSized)
    (hroom : c.FindsRoom me env.read)
    (hrelay : d.TakesWithin env.relay (c.offered ++ chunkBytes env.read.plain).length)
    (hwrite : c.TakesWithin env.write d.offered.length) : c'.QueueKept ∧ d'.QueueKept := by
  have hmask := (Conn.queueKept_withMask c events).mpr hc
  cases h with
  | closed => exact ⟨hmask.onClose, hd⟩
  | served hclose c₁ d₁ _ _ hread hbranch =>
      have hoffered : ((c.withMask events).onRead me env.read).1.offered =
          c.offered ++ chunkBytes env.read.plain := by
        have hroom' : (c.withMask events).FindsRoom me env.read := by
          unfold Conn.FindsRoom
          rw [Conn.withMask_plainManager]
          exact hroom
        rw [(Conn.onRead_offered (by simpa using hssl) (by simpa using hsized) hroom').1,
          Conn.offered_eq, Conn.withMask_plainManager, ← Conn.offered_eq]
      rw [← hoffered] at hrelay
      obtain ⟨hc₁, hd₁, htakes⟩ := hread.queueKept hmask hd hrelay
      -- the READ branch leaves the peer's pending bytes alone
      have hsame : SameLink d (c.withMask events) d₁ c₁ :=
        ReadBranch.sink_sameLink (s := me.peer) (by rw [Side.peer_peer]; exact hread)
      refine hbranch.queueKept ((Conn.queueKept_withMask c₁ events).mpr hc₁) hd₁ ?_
      rw [Conn.takesWithin_withMask, htakes, Conn.takesWithin_withMask, hsame.offered]
      exact hwrite

theorem sameLink_forceClose (source sink : Conn) :
    SameLink source sink source.forceClose sink.forceClose := by
  have hclose : ∀ c : Conn, c.forceClose.streams = c.streams ∧
      c.forceClose.connType = c.connType := by
    intro c
    rw [Conn.forceClose_eq]
    split
    · exact ⟨rfl, rfl⟩
    · exact ⟨c.onClose_streams, c.onClose_connType⟩
  refine ⟨?_, source.forceClose_plainManager, ?_, (hclose source).2, (hclose sink).2⟩
  · rw [(hclose source).1]
  · rw [(hclose sink).1]

namespace ProxyConnection

variable {p p' : ProxyConnection} {me : Side} {events : UInt32} {env : EventEnv} {e : SockEvent}
  {given : List (Side × List Byte)}

/-- The pieces that an event of side `me` hands over, with the side each comes
from. -/
def handedAt (p : ProxyConnection) (me : Side) (events : UInt32) (env : EventEnv) :
    List (Side × List Byte) :=
  (Conn.sourceHands events env (p.base me).params (p.base me.peer).params).map
      (fun piece => (me, piece)) ++
    (Conn.sinkHands events (p.base me.peer).params (p.base me).params).map
      fun piece => (me.peer, piece)

/-- The pieces that the callback for an event hands over. -/
def handed (p : ProxyConnection) (e : SockEvent) : List (Side × List Byte) :=
  if p.timerStatusAndFd = timerIsUp then []
  else match e.sockType with
    | .clientSock => p.handedAt .client e.events e.env
    | .backendSock => p.handedAt .backend e.events e.env
    | .proxyTimerSock => []

/-- The pieces handed over so far, and what is pending at the side they come from,
are what was decrypted there. What OpenSSL has taken and is to take at the other
end are the pieces as they are on the way to the client, and as the Host
rewriting leaves each of them on the way to the backend. -/
structure Conveyed (p : ProxyConnection) (given : List (Side × List Byte)) : Prop where
  toClient : Forwarded Eq (recordOf .backend given)
    p.backend.params.streams.decrypted p.backend.params.offered
    (p.client.params.streams.encrypted ++ p.client.params.toEncrypt)
  toBackend : Forwarded (fun piece image => hostRewritten piece = .ok image)
    (recordOf .client given) p.client.params.streams.decrypted p.client.params.offered
    (p.backend.params.streams.encrypted ++ p.backend.params.toEncrypt)

/-- Two SSL sides whose buffers have consistent sizes and whose plaintext queues
are in order, none of them freed before the timer is up. -/
structure Conveying (p : ProxyConnection) : Prop where
  live : p.timerStatusAndFd ≠ timerIsUp → p.Live
  ssl : ∀ s, (p.base s).params.connType = .sslConn
  sized : ∀ s, (p.base s).params.plainManager.WellSized
  kept : ∀ s, (p.base s).params.QueueKept

def PassedOn (p : ProxyConnection) (given : List (Side × List Byte)) (s : Side) : Prop :=
  (p.base s).params.PassedOn s (recordOf s given) (p.base s.peer).params

theorem Conveying.linked (h : p.Conveying) (s : Side) :
    (p.base s).params.Linked (p.base s.peer).params :=
  ⟨h.ssl s, h.ssl s.peer, h.sized s⟩

theorem Conveying.conveyed_iff (h : p.Conveying) :
    p.Conveyed given ↔ ∀ s, p.PassedOn given s := by
  have hclient : p.client.params.streams.queued =
      p.client.params.streams.encrypted ++ p.client.params.toEncrypt :=
    (h.kept .client).queued_eq (h.ssl .client)
  have hbackend : p.backend.params.streams.queued =
      p.backend.params.streams.encrypted ++ p.backend.params.toEncrypt :=
    (h.kept .backend).queued_eq (h.ssl .backend)
  have htoClient : p.PassedOn given .backend ↔ Forwarded Eq (recordOf .backend given)
      p.backend.params.streams.decrypted p.backend.params.offered
      (p.client.params.streams.encrypted ++ p.client.params.toEncrypt) := by
    rw [← hclient]
    rfl
  have htoBackend : p.PassedOn given .client ↔
      Forwarded (fun piece image => hostRewritten piece = .ok image) (recordOf .client given)
        p.client.params.streams.decrypted p.client.params.offered
        (p.backend.params.streams.encrypted ++ p.backend.params.toEncrypt) := by
    rw [← hbackend]
    rfl
  constructor
  · rintro ⟨hc, hb⟩ s
    cases s with
    | client => exact htoBackend.mpr hb
    | backend => exact htoClient.mpr hc
  · intro hall
    exact ⟨htoClient.mp (hall .backend), htoBackend.mp (hall .client)⟩

/-- What is conveyed to the client is what the backend has decrypted, byte for
byte. -/
theorem Conveyed.toClient_eq (h : p.Conveyed given) :
    p.client.params.streams.encrypted ++ p.client.params.toEncrypt ++ p.backend.params.offered =
      p.backend.params.streams.decrypted :=
  (forwarded_eq_iff.mp h.toClient).2

/-! ## Conditions on one event -/

/-- The event of side `me` forwards what side `s` has decrypted. -/
def ForwardsAt (p : ProxyConnection) (me : Side) (events : UInt32) (env : EventEnv)
    (s : Side) : Prop :=
  if s = me then (p.base s).params.SourceForwards s events env (p.base s.peer).params
  else (p.base s).params.SinkForwards events (p.base s.peer).params

/-- OpenSSL takes no more than it is offered, in the peer's `on_write` and in the
side's own. -/
def WithinAt (p : ProxyConnection) (me : Side) (env : EventEnv) : Prop :=
  (p.base me.peer).params.TakesWithin env.relay
      ((p.base me).params.offered ++ chunkBytes env.read.plain).length ∧
    (p.base me).params.TakesWithin env.write (p.base me.peer).params.offered.length

/-- `P` of an event that a callback of a side looks at. -/
def OnSide (P : ProxyConnection → Side → UInt32 → EventEnv → Prop) (p : ProxyConnection)
    (e : SockEvent) : Prop :=
  p.timerStatusAndFd ≠ timerIsUp → ∀ me : Side, e.sockType = me.sockType → P p me e.events e.env

def Forwards : ProxyConnection → SockEvent → Prop :=
  OnSide fun p me events env => ∀ s, p.ForwardsAt me events env s

/-- During the event OpenSSL takes no more than it is offered, and each chunk that
is decrypted finds room. -/
def Behaves : ProxyConnection → SockEvent → Prop :=
  OnSide fun p me _ env => p.WithinAt me env ∧ (p.base me).params.FindsRoom me env.read

/-! ## One event -/

theorem handed_side (hup : p.timerStatusAndFd ≠ timerIsUp) :
    p.handed ⟨me.sockType, events, env⟩ = p.handedAt me events env := by
  rw [handed, if_neg hup]
  cases me <;> rfl

theorem handed_timer (p : ProxyConnection) (events : UInt32) (env : EventEnv) :
    p.handed ⟨.proxyTimerSock, events, env⟩ = [] :=
  ite_self []

theorem recordOf_handedAt (p : ProxyConnection) (me : Side) (events : UInt32) (env : EventEnv) :
    recordOf me (p.handedAt me events env) =
        Conn.sourceHands events env (p.base me).params (p.base me.peer).params ∧
      recordOf me.peer (p.handedAt me events env) =
        Conn.sinkHands events (p.base me.peer).params (p.base me).params := by
  have hne : me ≠ me.peer := by cases me <;> decide
  unfold handedAt
  constructor
  · rw [recordOf_append, recordOf_map, recordOf_eq_nil, List.append_nil]
    simpa using fun _ _ => hne.symm
  · rw [recordOf_append, recordOf_map, recordOf_eq_nil, List.nil_append]
    simpa using fun _ _ => hne

theorem conveying_handled (h : p.Conveying) (hpassed : ∀ s, p.PassedOn given s)
    (hwithin : p.WithinAt me env) (hroom : (p.base me).params.FindsRoom me env.read)
    (hhandled : Handled me events env (p.base me).params (p.base me.peer).params
      (p'.base me).params (p'.base me.peer).params)
    (hlive : p'.timerStatusAndFd ≠ timerIsUp → p'.Live) :
    ((∀ s, p'.PassedOn (given ++ p.handedAt me events env) s) ↔
      ∀ s, p.ForwardsAt me events env s) ∧ p'.Conveying := by
  obtain ⟨hgiven, hgiven'⟩ := p.recordOf_handedAt me events env
  obtain ⟨hme, hlinked⟩ := hhandled.source_passedOn_iff (h.linked me) (hpassed me) hroom
  -- the peer is the source of the other direction
  have hsink := hpassed me.peer
  have hlinkedSink := h.linked me.peer
  unfold PassedOn at hsink
  rw [Side.peer_peer] at hsink hlinkedSink
  have hhandled' : Handled me.peer.peer events env (p.base me).params (p.base me.peer).params
      (p'.base me).params (p'.base me.peer).params := by
    rw [Side.peer_peer]
    exact hhandled
  obtain ⟨hpeer, hlinked'⟩ := hhandled'.sink_passedOn_iff hlinkedSink hsink
  obtain ⟨hkept, hkept'⟩ := hhandled.queueKept (h.kept me) (h.kept me.peer) (h.ssl me)
    (h.sized me) hroom hwithin.1 hwithin.2
  have hne : me.peer ≠ me := by cases me <;> decide
  refine ⟨forall_congr' fun s => ?_, hlive, me.both hlinked.sourceType hlinked'.sourceType,
    me.both hlinked.sized hlinked'.sized, me.both hkept hkept'⟩
  refine me.both (P := fun s => p'.PassedOn (given ++ p.handedAt me events env) s ↔
    p.ForwardsAt me events env s) ?_ ?_ s
  · rw [ForwardsAt, if_pos rfl, PassedOn, recordOf_append, hgiven]
    exact hme
  · rw [ForwardsAt, if_neg hne, PassedOn, recordOf_append, hgiven', Side.peer_peer]
    exact hpeer

theorem Conveying.of_sameLink (h : p.Conveying) (hpassed : ∀ s, p.PassedOn given s)
    (hsame : ∀ s, SameLink (p.base s).params (p.base s.peer).params (p'.base s).params
      (p'.base s.peer).params) (hkept : ∀ s, (p'.base s).params.QueueKept)
    (hlive : p'.timerStatusAndFd ≠ timerIsUp → p'.Live) :
    (∀ s, p'.PassedOn given s) ∧ p'.Conveying :=
  ⟨fun s => ((hsame s).passedOn_iff s _).mpr (hpassed s), hlive,
    fun s => ((hsame s).linked (h.linked s)).sourceType,
    fun s => ((hsame s).linked (h.linked s)).sized, hkept⟩

/-- **One event** of any handler conveys exactly if it forwards. -/
theorem conveyed_step_iff (h : p.Conveying) (hconveyed : p.Conveyed given)
    (hbehaves : p.Behaves e) (hstep : p.proxyEventsCallback e = .ok p') :
    (p'.Conveyed (given ++ p.handed e) ↔ p.Forwards e) ∧ p'.Conveying := by
  have hpassed := h.conveyed_iff.mp hconveyed
  by_cases hup : p.timerStatusAndFd = timerIsUp
  · rw [proxyEventsCallback_up hup] at hstep
    cases hstep
    rw [handed, if_pos hup, List.append_nil]
    exact ⟨iff_of_true hconveyed fun hne => absurd hup hne, h⟩
  have hlive := h.live hup
  rcases side_or_timer e with ⟨me, he⟩ | he
  · have hforwards : p.Forwards e ↔ ∀ s, p.ForwardsAt me e.events e.env s := by
      constructor
      · exact fun hall => hall hup me (by rw [he])
      · intro hall _ me' hme'
        have htype : me.sockType = me'.sockType := by rw [← hme', he]
        obtain rfl : me = me' := by cases me <;> cases me' <;> first | rfl | cases htype
        exact hall
    have hhanded : p.handed e = p.handedAt me e.events e.env := by
      rw [he]
      exact handed_side hup
    obtain ⟨hwithin, hroom⟩ := hbehaves hup me (by rw [he])
    rw [he] at hstep
    obtain ⟨q, hquiet, hhandled, rfl⟩ := proxyEventsCallback_handled hup hlive hstep
    obtain ⟨hiff, hconveying⟩ := @conveying_handled p
      { q with timerStatusAndFd := relaxTimer } me e.events e.env given h hpassed hwithin hroom
      (by simpa only [base_timerStatus] using hhandled)
      (fun _ => (hquiet.live hlive).timerStatus _)
    refine ⟨?_, hconveying⟩
    rw [hhanded, hconveying.conveyed_iff, hiff, hforwards]
  · have hforwards : p.Forwards e := by
      intro _ me hme
      rw [he] at hme
      exact absurd hme.symm me.sockType_ne_timer
    rw [he, proxyEventsCallback_timer hup] at hstep
    cases hstep
    suffices hnext : (∀ s, p.handleTimerEvent.PassedOn given s) ∧
        p.handleTimerEvent.Conveying by
      have hnone : p.handed e = [] := by
        rw [he]
        exact handed_timer _ _ _
      rw [hnone, List.append_nil]
      exact ⟨iff_of_true (hnext.2.conveyed_iff.mpr hnext.1) hforwards, hnext.2⟩
    rcases handleTimerEvent_cases hlive with hrearm | hdown | hsame
    · rw [hrearm]
      refine h.of_sameLink hpassed (fun s => ?_) (fun s => ?_) fun _ => hlive.rearmed
      · rw [rearmed_base, rearmed_base]
        exact ⟨rfl, rfl, rfl, rfl, rfl⟩
      · rw [rearmed_base]
        exact h.kept s
    · rw [hdown]
      refine h.of_sameLink hpassed (fun s => ?_) (fun s => ?_) fun hne => absurd rfl hne
      · rw [tornDown_params, tornDown_params]
        exact sameLink_forceClose _ _
      · rw [tornDown_params]
        exact (h.kept s).forceClose
    · rw [hsame]
      exact ⟨hpassed, h⟩

theorem freeProxyObj_base (p : ProxyConnection) (t : SockType) (s : Side) :
    (p.freeProxyObj t).base s = p.base s := by
  unfold freeProxyObj
  simp only
  split <;> cases s <;> rfl

theorem freeProxyObj_timerStatus (p : ProxyConnection) (t : SockType) :
    (p.freeProxyObj t).timerStatusAndFd = p.timerStatusAndFd := by
  unfold freeProxyObj
  simp only
  split <;> rfl

theorem conveyed_freeProxyObj (h : p.Conveying) (hconveyed : p.Conveyed given) (t : SockType) :
    (p.freeProxyObj t).Conveyed given ∧ (p.freeProxyObj t).Conveying := by
  have hnext : (∀ s, (p.freeProxyObj t).PassedOn given s) ∧ (p.freeProxyObj t).Conveying := by
    refine h.of_sameLink (h.conveyed_iff.mp hconveyed) (fun s => ?_) (fun s => ?_) fun hne s => ?_
    · rw [freeProxyObj_base, freeProxyObj_base]
      exact ⟨rfl, rfl, rfl, rfl, rfl⟩
    · rw [freeProxyObj_base]
      exact h.kept s
    · rw [freeProxyObj_timerStatus] at hne
      rw [freeProxyObj_base]
      exact h.live hne s
  obtain ⟨hpassed, hconveying⟩ := hnext
  exact ⟨hconveying.conveyed_iff.mpr hpassed, hconveying⟩

theorem newConnection_conveying (heap : Side → ℕ → Mem Byte) (clientFd backendFd : ℤ) :
    (newConnection heap clientFd .sslConn backendFd .sslConn).Conveying ∧
      (newConnection heap clientFd .sslConn backendFd .sslConn).Conveyed [] := by
  have hconveying : (newConnection heap clientFd .sslConn backendFd .sslConn).Conveying := by
    refine ⟨fun _ s => ?_, fun s => ?_, fun s => ?_, fun s => ?_⟩
    · cases s <;> rfl
    · cases s <;> rfl
    · cases s with
      | client => exact newBufferManager_wellSized (heap .client 3)
      | backend => exact newBufferManager_wellSized (heap .backend 3)
    · cases s with
      | client => exact ⟨newBufferManager_wellSized (heap .client 0), rfl⟩
      | backend => exact ⟨newBufferManager_wellSized (heap .backend 0), rfl⟩
  refine ⟨hconveying, hconveying.conveyed_iff.mpr fun s => ?_⟩
  cases s with
  | client => exact forwarded_nil _ []
  | backend => exact forwarded_nil _ []

end ProxyConnection
end Zroxy
