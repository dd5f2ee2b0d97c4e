import Zroxy.Events.ClientRelay
import Zroxy.Lib.Forwarding
import Zroxy.Properties.PlainBufferBounds

/-!
# Plaintext from one side to the other

Both sides are SSL. `source` is the side that decrypts and `sink` the one that
encrypts what it is given; each side is the source of one direction. The client
queues what it is given as it is, the backend as the Host rewriting leaves it
(`PassedAs`). `PassedOn` says of the pieces handed over so far that sink and
source are a forwarder: what the source has decrypted are these pieces and what
it has pending, and what the sink has queued are their images.

An event hands over the whole of what is pending, if anything (`sourceHands`,
`sinkHands`). It keeps the forwarder exactly if it hands over nothing that stays
pending, whichever side it is for (`Handled.source_passedOn_iff`,
`Handled.sink_passedOn_iff`).
-/

namespace Zroxy

open OffsetMemory Runs Forwarding

/-! ## One piece -/

/-- What a side queues of a piece it is given. -/
def PassedAs : Side → List Byte → List Byte → Prop
  | .client, piece, image => piece = image
  | .backend, piece, image => hostRewritten piece = .ok image

theorem PassedAs.length_eq {side : Side} {piece image : List Byte} (h : PassedAs side piece image) :
    piece.length = image.length := by
  cases side with
  | client => exact congrArg List.length h
  | backend =>
      obtain ⟨req, hreq, hbytes⟩ : ∃ req, rewriteHost (requestOf piece) = .ok req ∧
          req.bytes = image := by
        change (rewriteHost (requestOf piece)).map WriteIoReq.bytes = .ok image at h
        cases hreq : rewriteHost (requestOf piece) with
        | error f =>
            rw [hreq] at h
            cases h
        | ok req =>
            rw [hreq] at h
            exact ⟨req, rfl, Except.ok.inj h⟩
      rw [← hbytes, WriteIoReq.bytes, window_length, rewriteHost_sendNbytes hreq]
      exact (Int.toNat_natCast piece.length).symm

theorem BufferManager.copyChunks_client {ks : List Chunk} {b : BufferManager} (h : b.WellSized)
    (hroom : b.RoomFor ks) :
    (copyChunks SslConn.clientPlainGrowth b ks).WellSized ∧
      (copyChunks SslConn.clientPlainGrowth b ks).pending = b.pending ++ chunkBytes ks := by
  induction ks generalizing b with
  | nil => exact ⟨h, by simp⟩
  | cons k ks ih =>
      obtain ⟨hfirst, hrest⟩ := hroom
      have hfit := (fits_growIfFull_iff ⟨h.ptr_le, h.max_ge⟩ k.length_le_int).mpr hfirst
      obtain ⟨hsized, hpending⟩ := ih (h.growIfFull.appendBytes hfit) hrest
      refine ⟨hsized, ?_⟩
      rw [copyChunks_cons]
      refine hpending.trans ?_
      rw [pending_appendBytes h.growIfFull.ptr_nonneg, pending_growIfFull h.ptr_le h.max_nonneg,
        List.append_assoc, chunkBytes_cons]

namespace Conn

variable {c c' source sink sink' source' : Conn} {side : Side}

/-- Each chunk that the read event delivers finds room in the plain buffer. The
backend's growth sees to that. -/
def FindsRoom (side : Side) (env : ReadEnv) (c : Conn) : Prop :=
  side = .client → c.plainManager.RoomFor env.plain

theorem onRead_offered (hc : c.connType = .sslConn) (hsized : c.plainManager.WellSized)
    {env : ReadEnv} (hroom : c.FindsRoom side env) :
    (c.onRead side env).1.offered = c.offered ++ chunkBytes env.plain ∧
      (c.onRead side env).1.plainManager.WellSized := by
  obtain ⟨s, rfl⟩ := eq_ssl hc
  rw [offered_eq, (onRead_ssl_plain s side env).1]
  cases side with
  | client =>
      obtain ⟨hsized', hpending⟩ :=
        @BufferManager.copyChunks_client env.plain s.plainBufferManager hsized (hroom rfl)
      exact ⟨hpending, hsized'⟩
  | backend =>
      obtain ⟨hsized', hpending⟩ :=
        @BufferManager.copyChunks_backend env.plain s.plainBufferManager hsized
      exact ⟨hpending, hsized'⟩

/-- An SSL side that is given what its peer has pending queues it in the form it
is passed on in, which is what the peer's memory then holds. -/
theorem onWrite_passedAs (hsink : sink.connType = .sslConn)
    (hsized : source.plainManager.WellSized) {memory : Mem Byte} {n : ℤ} {env : WriteEnv}
    (hwrite : sink.onWrite side source.requestBufferReader env = .ok (sink', memory, n)) :
    ∃ image, PassedAs side source.offered image ∧
      sink'.streams.queued = sink.streams.queued ++ image ∧
      (source.setSource memory).offered = image ∧
      (if sink.Sends side env source.offered.length ∧ env.send.takesAny = true
        then n = source.plainManager.currentBufferPtr else n ≤ 0) := by
  obtain ⟨s, rfl⟩ := eq_ssl hsink
  obtain ⟨req, hlen, hmemory, hclient, hbackend, hqueued, hcode⟩ := onWrite_ssl_queued hwrite
  have hptr : source.requestBufferReader.sendNbytes = source.plainManager.currentBufferPtr := by
    cases source <;> rfl
  rw [requestBufferReader_bytes, hptr] at hcode
  refine ⟨req.bytes, ?_, hqueued, ?_, hcode⟩
  · cases side with
    | client =>
        rw [hclient rfl, requestBufferReader_bytes]
        rfl
    | backend =>
        have hnonneg : 0 ≤ source.requestBufferReader.sendNbytes := hptr ▸ hsized.ptr_nonneg
        have hrewritten := rewriteHost_bytes hnonneg
        rw [hbackend rfl, requestBufferReader_bytes] at hrewritten
        exact hrewritten.symm
  · have hsame : (source.setSource memory).offered =
        window memory 0 source.plainManager.currentBufferPtr.toNat := by
      cases source <;> rfl
    rw [hsame, hmemory, WriteIoReq.bytes, hlen, hptr]

@[simp] theorem wellSized_setSource (c : Conn) (memory : Mem Byte) :
    (c.setSource memory).plainManager.WellSized ↔ c.plainManager.WellSized := by
  cases c with
  | plain c => exact ⟨fun h => ⟨h.1, h.2, h.3⟩, fun h => ⟨h.1, h.2, h.3⟩⟩
  | ssl c => exact ⟨fun h => ⟨h.1, h.2, h.3⟩, fun h => ⟨h.1, h.2, h.3⟩⟩

/-! ## A source and its sink -/

/-- The source, on side `s`, has decrypted the pieces and what it has pending, and
the sink has queued what the pieces are passed on as. -/
def PassedOn (s : Side) (pieces : List (List Byte)) (source sink : Conn) : Prop :=
  Forwarded (PassedAs s.peer) pieces source.streams.decrypted source.offered sink.streams.queued

/-- What an event of the source hands over to the sink: what is pending behind the
READ branch, if it gets as far. The mask is the one the event leaves stored. -/
def sourceHands (events : UInt32) (env : EventEnv) (source sink : Conn) : List (List Byte) :=
  let mask := storeMask source.events events
  if maskReady mask .close = false ∧ maskReady mask .read = true ∧
      0 < readSocketNonBlock env.read.recv ∧ maskReady sink.events .write = true
  then [source.offered ++ chunkBytes env.read.plain] else []

/-- What an event of the sink takes over from the source. -/
def sinkHands (events : UInt32) (source sink : Conn) : List (List Byte) :=
  let mask := storeMask sink.events events
  if maskReady mask .close = false ∧ maskReady mask .write = true then [source.offered] else []

/-- An event of the source hands over nothing that stays pending. -/
def SourceForwards (s : Side) (events : UInt32) (env : EventEnv) (source sink : Conn) : Prop :=
  let mask := storeMask source.events events
  let pending := source.offered ++ chunkBytes env.read.plain
  maskReady mask .close = true ∨ maskReady mask .read = false ∨
    readSocketNonBlock env.read.recv ≤ 0 ∨ maskReady sink.events .write = false ∨ pending = [] ∨
    (sink.Sends s.peer env.relay pending.length ∧ env.relay.send.takesAny = true)

/-- Nor does an event of the sink. -/
def SinkForwards (events : UInt32) (source sink : Conn) : Prop :=
  let mask := storeMask sink.events events
  maskReady mask .close = true ∨ maskReady mask .write = false ∨ source.offered = []

/-- A source that can be read from, and a sink. -/
structure Linked (source sink : Conn) : Prop where
  sourceType : source.connType = .sslConn
  sinkType : sink.connType = .sslConn
  sized : source.plainManager.WellSized

theorem Linked.onRead (h : Linked source sink) {env : ReadEnv}
    (hroom : source.FindsRoom side env) : Linked (source.onRead side env).1 sink := by
  obtain ⟨-, -, -, htype, -⟩ := source.onRead_frame side env
  exact ⟨htype.trans h.sourceType, h.sinkType, (onRead_offered h.sourceType h.sized hroom).2⟩

theorem PassedOn.onRead {s : Side} {pieces : List (List Byte)}
    (h : PassedOn s pieces source sink) (hlinked : Linked source sink) {env : ReadEnv}
    (hroom : source.FindsRoom s env) : PassedOn s pieces (source.onRead s env).1 sink := by
  have hoffered := (onRead_offered hlinked.sourceType hlinked.sized hroom).1
  have hdecrypted : (source.onRead s env).1.streams.decrypted =
      source.streams.decrypted ++ chunkBytes env.plain := by
    obtain ⟨c, rfl⟩ := eq_ssl hlinked.sourceType
    exact (onRead_ssl_plain c s env).2
  unfold PassedOn at h ⊢
  rw [hoffered, hdecrypted]
  exact h.arrive _

/-- The sink is given what is pending, and the source keeps it. -/
theorem passedOn_again_iff {s : Side} {pieces : List (List Byte)}
    (h : PassedOn s pieces source sink) (hlinked : Linked source sink) {memory : Mem Byte} {n : ℤ}
    {env : WriteEnv}
    (hwrite : sink.onWrite s.peer source.requestBufferReader env = .ok (sink', memory, n)) :
    (PassedOn s (pieces ++ [source.offered]) (source.setSource memory) sink' ↔
        source.offered = []) ∧ Linked (source.setSource memory) sink' := by
  obtain ⟨image, himage, hqueued, hleft, -⟩ :=
    onWrite_passedAs hlinked.sinkType hlinked.sized hwrite
  obtain ⟨-, -, -, htype, -⟩ := onWrite_frame hwrite
  obtain ⟨-, -, -, htype', hstreams⟩ := source.setSource_frame memory
  refine ⟨?_, htype'.trans hlinked.sourceType, htype.trans hlinked.sinkType,
    (wellSized_setSource source memory).mpr hlinked.sized⟩
  unfold PassedOn at h ⊢
  rw [hstreams, hqueued, hleft]
  exact h.again_iff himage himage.length_eq.symm

/-- The sink is given what is pending, and the source consumes by the answer. -/
theorem passedOn_consume_iff {s : Side} {pieces : List (List Byte)}
    (h : PassedOn s pieces source sink) (hlinked : Linked source sink) {memory : Mem Byte} {n : ℤ}
    {env : WriteEnv}
    (hwrite : sink.onWrite s.peer source.requestBufferReader env = .ok (sink', memory, n))
    (hconsume : (source.setSource memory).readNbytes s n = .ok source') :
    (PassedOn s (pieces ++ [source.offered]) source' sink' ↔ source.offered = [] ∨
        (sink.Sends s.peer env source.offered.length ∧ env.send.takesAny = true)) ∧
      Linked source' sink' := by
  obtain ⟨hagain, hlinked'⟩ := passedOn_again_iff h hlinked hwrite
  obtain ⟨image, himage, hqueued, hleft, hcode⟩ :=
    onWrite_passedAs hlinked.sinkType hlinked.sized hwrite
  obtain ⟨-, -, -, htype, hstreams, hmanager⟩ := readNbytes_frame hconsume
  have hptr := hlinked'.sized.ptr_nonneg
  have hsame : (source.setSource memory).plainManager.currentBufferPtr =
      source.plainManager.currentBufferPtr := by
    cases source <;> rfl
  by_cases hnone : n ≤ 0
  · -- nothing is consumed
    rw [if_pos hnone] at hmanager
    have hkept : PassedOn s (pieces ++ [source.offered]) source' sink' ↔
        PassedOn s (pieces ++ [source.offered]) (source.setSource memory) sink' := by
      unfold PassedOn
      rw [hstreams, offered_eq source', hmanager, ← offered_eq]
    refine ⟨?_, htype.trans hlinked'.sourceType, hlinked'.sinkType, hmanager ▸ hlinked'.sized⟩
    rw [hkept, hagain]
    refine ⟨Or.inl, fun hor => hor.elim id fun htaken => ?_⟩
    -- an answer of 0 that is the number of pending bytes
    rw [if_pos htaken] at hcode
    rw [offered_eq, BufferManager.pending_eq_nil_iff, ← hcode]
    exact hnone
  · -- all of it is
    have htaken : sink.Sends s.peer env source.offered.length ∧ env.send.takesAny = true := by
      by_contra hnot
      rw [if_neg hnot] at hcode
      exact hnone hcode
    rw [if_pos htaken, ← hsame] at hcode
    rw [if_neg hnone, hcode] at hmanager
    have hempty : source'.offered = [] := by
      rw [offered_eq, hmanager, BufferManager.pending_eq_nil_iff, BufferManager.consume_ptr,
        sub_self]
    refine ⟨iff_of_true ?_ (Or.inr htaken), htype.trans hlinked'.sourceType, hlinked'.sinkType, ?_⟩
    · obtain ⟨-, -, -, -, hstreams'⟩ := source.setSource_frame memory
      unfold PassedOn at h ⊢
      rw [hstreams, hstreams', hqueued, hempty]
      exact h.pass himage
    · rw [hmanager]
      exact hlinked'.sized.consume hptr le_rfl

end Conn

/-! ## The branches -/

variable {s : Side} {env : EventEnv} {ready : Bool} {source sink source' sink' : Conn}
  {pieces : List (List Byte)}

open Conn

theorem ReadBranch.source_passedOn_iff (h : ReadBranch s env ready source sink source' sink')
    (hlinked : Linked source sink) (hpassed : PassedOn s pieces source sink)
    (hroom : source.FindsRoom s env.read) :
    (PassedOn s (pieces ++
          if ready = true ∧ 0 < readSocketNonBlock env.read.recv ∧
              maskReady sink.events .write = true
          then [source.offered ++ chunkBytes env.read.plain] else []) source' sink' ↔
      ready = false ∨ readSocketNonBlock env.read.recv ≤ 0 ∨
        maskReady sink.events .write = false ∨ source.offered ++ chunkBytes env.read.plain = [] ∨
        (sink.Sends s.peer env.relay (source.offered ++ chunkBytes env.read.plain).length ∧
          env.relay.send.takesAny = true)) ∧
      Linked source' sink' := by
  have hread := hpassed.onRead hlinked hroom
  have hlinked' := hlinked.onRead hroom
  have hoffered := (onRead_offered hlinked.sourceType hlinked.sized hroom).1
  have hbytes := source.onRead_snd s env.read
  cases h with
  | notReady hready =>
      rw [if_neg (by simp [hready]), List.append_nil]
      exact ⟨iff_of_true hpassed (Or.inl hready), hlinked⟩
  | nothing _ hnone =>
      rw [hbytes] at hnone
      rw [if_neg fun hall => hnone.not_gt hall.2.1, List.append_nil]
      exact ⟨iff_of_true hread (Or.inr (Or.inl hnone)), hlinked'⟩
  | kept _ _ hmask =>
      rw [if_neg (by simp [hmask]), List.append_nil]
      exact ⟨iff_of_true hread (Or.inr (Or.inr (Or.inl hmask))), hlinked'⟩
  | relayed hready hsome hmask _ _ memory n hwrite hconsume =>
      obtain ⟨hiff, hlinked''⟩ := passedOn_consume_iff hread hlinked' hwrite hconsume
      rw [hbytes] at hsome
      rw [hoffered] at hiff
      refine ⟨?_, hlinked''⟩
      rw [if_pos ⟨hready, hsome, hmask⟩]
      simp only [hiff, hready, hmask, Bool.true_eq_false, false_or, not_le.mpr hsome]

/-- The WRITE branch of the sink takes over what is pending, and leaves it there. -/
theorem WriteBranch.sink_passedOn_iff
    (h : WriteBranch s.peer env ready sink source sink' source')
    (hlinked : Linked source sink) (hpassed : PassedOn s pieces source sink) :
    (PassedOn s (pieces ++ if ready = true then [source.offered] else []) source' sink' ↔
      ready = false ∨ source.offered = []) ∧ Linked source' sink' := by
  cases h with
  | notReady hready =>
      rw [if_neg (by simp [hready]), List.append_nil]
      exact ⟨iff_of_true hpassed (Or.inl hready), hlinked⟩
  | written hready _ memory n hwrite =>
      obtain ⟨hiff, hlinked'⟩ := passedOn_again_iff hpassed hlinked hwrite
      refine ⟨?_, hlinked'⟩
      rw [if_pos hready, hiff, hready]
      simp

/-- The same source and sink, as far as what is passed on is concerned. -/
structure SameLink (source sink source' sink' : Conn) : Prop where
  decrypted : source'.streams.decrypted = source.streams.decrypted
  plain : source'.plainManager = source.plainManager
  queued : sink'.streams.queued = sink.streams.queued
  sourceType : source'.connType = source.connType
  sinkType : sink'.connType = sink.connType

theorem SameLink.passedOn_iff (h : SameLink source sink source' sink') (s : Side)
    (pieces : List (List Byte)) :
    PassedOn s pieces source' sink' ↔ PassedOn s pieces source sink := by
  unfold PassedOn
  rw [h.decrypted, h.queued, offered_eq, h.plain, ← offered_eq]

theorem SameLink.linked (h : SameLink source sink source' sink') (hlinked : Linked source sink) :
    Linked source' sink' :=
  ⟨h.sourceType.trans hlinked.sourceType, h.sinkType.trans hlinked.sinkType,
    h.plain ▸ hlinked.sized⟩

theorem SameLink.offered (h : SameLink source sink source' sink') :
    source'.offered = source.offered := by
  rw [offered_eq, h.plain, ← offered_eq]

theorem sameLink_withMask_source (events : UInt32) :
    SameLink source sink (source.withMask events) sink := by
  constructor <;> simp

theorem sameLink_withMask_sink (events : UInt32) :
    SameLink source sink source (sink.withMask events) := by
  constructor <;> simp

/-- The READ branch of the sink concerns the other direction. -/
theorem ReadBranch.sink_sameLink (h : ReadBranch s.peer env ready sink source sink' source') :
    SameLink source sink source' sink' := by
  obtain ⟨-, -, -, htype, hqueued⟩ := sink.onRead_frame s.peer env.read
  cases h with
  | notReady => exact ⟨rfl, rfl, rfl, rfl, rfl⟩
  | nothing => exact ⟨rfl, rfl, hqueued, rfl, htype⟩
  | kept => exact ⟨rfl, rfl, hqueued, rfl, htype⟩
  | relayed _ _ _ _ _ memory n hwrite hconsume =>
      obtain ⟨-, -, -, hsource, hplain, hdecrypted⟩ := onWrite_frame hwrite
      obtain ⟨-, -, -, htype', hstreams, -⟩ := readNbytes_frame hconsume
      obtain ⟨-, -, -, htype'', hstreams'⟩ :=
        (sink.onRead s.peer env.read).1.setSource_frame memory
      refine ⟨hdecrypted, hplain, ?_, hsource, htype'.trans (htype''.trans htype)⟩
      rw [hstreams, hstreams', hqueued]

theorem ReadBranch.events_eq (h : ReadBranch s env ready source sink source' sink') :
    source'.events = source.events := by
  obtain ⟨-, -, hread, -, -⟩ := source.onRead_frame s env.read
  cases h with
  | notReady => rfl
  | nothing => exact hread
  | kept => exact hread
  | relayed _ _ _ _ _ memory n _ hconsume =>
      obtain ⟨-, -, hevents, -, -, -⟩ := readNbytes_frame hconsume
      obtain ⟨-, -, hset, -, -⟩ := (source.onRead s env.read).1.setSource_frame memory
      exact hevents.trans (hset.trans hread)

theorem WriteBranch.source_sameLink (h : WriteBranch s env ready source sink source' sink') :
    SameLink source sink source' sink' := by
  cases h with
  | notReady => exact ⟨rfl, rfl, rfl, rfl, rfl⟩
  | written _ _ memory n hwrite =>
      obtain ⟨-, -, -, hsource, hplain, hdecrypted⟩ := onWrite_frame hwrite
      obtain ⟨-, -, -, hsink, hstreams⟩ := sink.setSource_frame memory
      exact ⟨hdecrypted, hplain, by rw [hstreams], hsource, hsink⟩

/-! ## Whole events -/

/-- **An event of the source.** -/
theorem Handled.source_passedOn_iff {events : UInt32}
    (h : Handled s events env source sink source' sink') (hlinked : Linked source sink)
    (hpassed : PassedOn s pieces source sink) (hroom : source.FindsRoom s env.read) :
    (PassedOn s (pieces ++ sourceHands events env source sink) source' sink' ↔
      SourceForwards s events env source sink) ∧ Linked source' sink' := by
  have hmask := @sameLink_withMask_source source sink events
  simp only [SourceForwards, sourceHands]
  cases h with
  | closed hclose =>
      have hsame : SameLink source sink (source.withMask events).onClose sink := by
        constructor <;> simp
      rw [if_neg (by simp [hclose]), List.append_nil]
      exact ⟨iff_of_true ((hsame.passedOn_iff s pieces).mpr hpassed) (Or.inl hclose),
        hsame.linked hlinked⟩
  | served hclose source₁ sink₁ _ _ hread hwrite =>
      have hroom' : (source.withMask events).FindsRoom s env.read := by
        unfold FindsRoom
        rw [withMask_plainManager]
        exact hroom
      obtain ⟨hiff, hlinked₁⟩ := hread.source_passedOn_iff (hmask.linked hlinked)
        ((hmask.passedOn_iff s pieces).mpr hpassed) hroom'
      have hmask₁ := @sameLink_withMask_source source₁ sink₁ events
      have hsame := hwrite.source_sameLink
      refine ⟨?_, hsame.linked (hmask₁.linked hlinked₁)⟩
      rw [hmask.offered] at hiff
      rw [hsame.passedOn_iff, hmask₁.passedOn_iff, hclose]
      simpa using hiff

/-- **An event of the sink.** -/
theorem Handled.sink_passedOn_iff {events : UInt32}
    (h : Handled s.peer events env sink source sink' source') (hlinked : Linked source sink)
    (hpassed : PassedOn s pieces source sink) :
    (PassedOn s (pieces ++ sinkHands events source sink) source' sink' ↔
      SinkForwards events source sink) ∧ Linked source' sink' := by
  have hmask := @sameLink_withMask_sink source sink events
  simp only [SinkForwards, sinkHands]
  cases h with
  | closed hclose =>
      have hsame : SameLink source sink source (sink.withMask events).onClose := by
        constructor <;> simp
      rw [if_neg (by simp [hclose]), List.append_nil]
      exact ⟨iff_of_true ((hsame.passedOn_iff s pieces).mpr hpassed) (Or.inl hclose),
        hsame.linked hlinked⟩
  | served hclose sink₁ source₁ _ _ hread hwrite =>
      have hsame := hread.sink_sameLink
      have hmask₁ := @sameLink_withMask_sink source₁ sink₁ events
      have hlinked₁ := hsame.linked (hmask.linked hlinked)
      have hpassed₁ : PassedOn s pieces source₁ sink₁ := by
        rw [hsame.passedOn_iff, hmask.passedOn_iff]
        exact hpassed
      obtain ⟨hiff, hlinked'⟩ := hwrite.sink_passedOn_iff (hmask₁.linked hlinked₁)
        ((hmask₁.passedOn_iff s pieces).mpr hpassed₁)
      have hevents : storeMask sink₁.events events = storeMask sink.events events := by
        rw [hread.events_eq, withMask_events, storeMask_self]
      rw [hevents, hsame.offered] at hiff
      refine ⟨?_, hlinked'⟩
      rw [hclose]
      simpa using hiff

theorem Handled.connType {events : UInt32}
    (h : Handled s events env source sink source' sink') :
    source'.connType = source.connType ∧ sink'.connType = sink.connType := by
  cases h with
  | closed => exact ⟨by simp, rfl⟩
  | served _ source₁ sink₁ _ _ hread hwrite =>
      have hfirst : SameLink sink (source.withMask events) sink₁ source₁ :=
        ReadBranch.sink_sameLink (s := s.peer) (by rw [Side.peer_peer]; exact hread)
      have hsecond := hwrite.source_sameLink
      refine ⟨?_, hsecond.sinkType.trans hfirst.sourceType⟩
      rw [hsecond.sourceType, withMask_connType, hfirst.sinkType, withMask_connType]

end Zroxy
