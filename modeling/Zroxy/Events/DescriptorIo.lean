import Zroxy.Events.ProxyEffects

/-!
# System calls of one event

Which system calls a client or backend event makes on the descriptor that has
the event, and which on the peer's. The peer's descriptor is only ever written
to, and `WritesPeer` says when.
-/

namespace Zroxy

open OffsetMemory Runs

/-! ## How much a peer is offered -/

namespace Conn

/-- The number of bytes that one `on_read` appends to the bytes offered. -/
def delivered (env : ReadEnv) : Conn → ℕ
  | .plain _ => (match env.recv with | .received k => k.length | _ => 0)
  | .ssl _ => (chunkBytes env.plain).length

theorem onRead_ptr (c : Conn) (side : Side) (env : ReadEnv) :
    (c.onRead side env).1.plainManager.currentBufferPtr =
      c.plainManager.currentBufferPtr + c.delivered env := by
  cases c with
  | plain c =>
      simp only [onRead, PlainConn.onReadEvent, delivered, plainManager]
      cases env.recv <;> simp [BufferManager.nbyteWrittenToBuffer, BufferManager.touch]
  | ssl c =>
      rw [(onRead_ssl_plain c side env).1, BufferManager.copyChunks_ptr]
      rfl

/-- Nothing but receives and sends happened on the descriptor. -/
structure Exchanged (c c' : Conn) : Prop where
  io : ∃ ops, c'.io = c.io ++ ops ∧ ∀ op ∈ ops, op = .recv ∨ op = .send
  isClosed : c'.isClosed = c.isClosed

theorem Exchanged.of_io {c c' : Conn} {ops : List SysOp} (hio : c'.io = c.io ++ ops)
    (hops : ∀ op ∈ ops, op = .recv ∨ op = .send) (hclosed : c'.isClosed = c.isClosed) :
    c.Exchanged c' :=
  ⟨⟨ops, hio, hops⟩, hclosed⟩

theorem Exchanged.of_eq {c c' : Conn} (hio : c'.io = c.io) (hclosed : c'.isClosed = c.isClosed) :
    c.Exchanged c' :=
  ⟨⟨[], by rw [hio, List.append_nil], by simp⟩, hclosed⟩

theorem Exchanged.refl (c : Conn) : c.Exchanged c := .of_eq rfl rfl

theorem Exchanged.trans {c c' c'' : Conn} (h : c.Exchanged c') (g : c'.Exchanged c'') :
    c.Exchanged c'' := by
  obtain ⟨ops, hio, hops⟩ := h.io
  obtain ⟨ops', hio', hops'⟩ := g.io
  refine @Exchanged.of_io _ _ (ops ++ ops') ?_ ?_ (g.isClosed.trans h.isClosed)
  · rw [hio', hio, List.append_assoc]
  · intro op hop
    exact (List.mem_append.mp hop).elim (hops op) (hops' op)

theorem exchanged_withMask (c : Conn) (events : UInt32) : c.Exchanged (c.withMask events) :=
  .of_eq (by simp) (by simp)

theorem exchanged_onRead (c : Conn) (side : Side) (env : ReadEnv) :
    c.Exchanged (c.onRead side env).1 := by
  obtain ⟨hio, hclosed, -⟩ := c.onRead_frame side env
  exact .of_io hio (by simp) hclosed

theorem exchanged_onWrite {c c' : Conn} {side : Side} {req : WriteIoReq} {env : WriteEnv}
    {memory : Mem Byte} {n : ℤ} (h : c.onWrite side req env = .ok (c', memory, n)) :
    c.Exchanged c' := by
  obtain ⟨hio, hclosed, -⟩ := onWrite_frame h
  refine .of_io hio ?_ hclosed
  split <;> simp

end Conn

/-! ## The branches -/

variable {me : Side} {events : UInt32} {env : EventEnv} {ready : Bool} {c d c' d' : Conn}

theorem ReadBranch.me_exchanged (h : ReadBranch me env ready c d c' d') : c.Exchanged c' := by
  have hread := c.exchanged_onRead me env.read
  cases h with
  | notReady => exact .refl c
  | nothing => exact hread
  | kept => exact hread
  | relayed _ _ _ _ _ memory n _ hconsume =>
      obtain ⟨hio, hclosed, -⟩ := Conn.readNbytes_frame hconsume
      obtain ⟨hio', hclosed', -⟩ := (c.onRead me env.read).1.setSource_frame memory
      exact hread.trans (.of_eq (hio.trans hio') (hclosed.trans hclosed'))

/-- The READ branch writes to the peer, and `send` is called for it. -/
def RelaySends (me : Side) (env : EventEnv) (ready : Bool) (c d : Conn) : Prop :=
  ready = true ∧ 0 < readSocketNonBlock env.read.recv ∧ maskReady d.events .write = true ∧
    d.Sends me.peer env.relay (c.plainManager.currentBufferPtr + c.delivered env.read).toNat

instance (me : Side) (env : EventEnv) (ready : Bool) (c d : Conn) :
    Decidable (RelaySends me env ready c d) := by
  unfold RelaySends
  infer_instance

theorem ReadBranch.peer_io (h : ReadBranch me env ready c d c' d') :
    d'.io = d.io ++ (if RelaySends me env ready c d then [.send] else []) ∧
      d'.isClosed = d.isClosed := by
  have hread := c.onRead_snd me env.read
  cases h with
  | notReady hready => simp [RelaySends, hready]
  | nothing _ hnone =>
      rw [hread] at hnone
      simp [RelaySends, not_lt.mpr hnone]
  | kept _ _ hmask => simp [RelaySends, hmask]
  | relayed hready hsome hmask _ _ memory n hwrite _ =>
      obtain ⟨hio, hclosed, -⟩ := Conn.onWrite_frame hwrite
      have hlen : (c.onRead me env.read).1.requestBufferReader.bytes.length =
          (c.plainManager.currentBufferPtr + c.delivered env.read).toNat := by
        rw [Conn.requestBufferReader_bytes, Conn.offered_eq, BufferManager.pending,
          window_length, Conn.onRead_ptr]
      rw [hread] at hsome
      rw [hlen] at hio
      exact ⟨by rw [hio]; simp [RelaySends, hready, hsome, hmask], hclosed⟩

theorem WriteBranch.me_exchanged (h : WriteBranch me env ready c d c' d') : c.Exchanged c' := by
  cases h with
  | notReady => exact .refl c
  | written _ _ _ _ hwrite => exact Conn.exchanged_onWrite hwrite

theorem WriteBranch.peer_io (h : WriteBranch me env ready c d c' d') :
    d'.io = d.io ∧ d'.isClosed = d.isClosed := by
  cases h with
  | notReady => exact ⟨rfl, rfl⟩
  | written _ _ memory _ _ =>
      obtain ⟨hio, hclosed, -⟩ := d.setSource_frame memory
      exact ⟨hio, hclosed⟩

/-! ## Whole events -/

/-- The event makes a `send` on the peer's descriptor. -/
def WritesPeer (me : Side) (events : UInt32) (env : EventEnv) (c d : Conn) : Prop :=
  maskReady (storeMask c.events events) .close = false ∧
    RelaySends me env (maskReady (storeMask c.events events) .read) c d

instance (me : Side) (events : UInt32) (env : EventEnv) (c d : Conn) :
    Decidable (WritesPeer me events env c d) := by
  unfold WritesPeer
  infer_instance

theorem Handled.me_io (h : Handled me events env c d c' d') :
    (c'.io = c.io ++ [.epollDel, .close] ∧ c'.isClosed = true) ∨ c.Exchanged c' := by
  cases h with
  | closed => exact Or.inl ⟨by simp, by simp⟩
  | served _ c₁ _ _ _ hread hwrite =>
      refine Or.inr ((c.exchanged_withMask events).trans (hread.me_exchanged.trans ?_))
      exact (c₁.exchanged_withMask events).trans hwrite.me_exchanged

/-- **The peer** sees one `send` or nothing. -/
theorem Handled.peer_io (h : Handled me events env c d c' d') :
    d'.io = d.io ++ (if WritesPeer me events env c d then [.send] else []) ∧
      d'.isClosed = d.isClosed := by
  cases h with
  | closed hclose => simp [WritesPeer, hclose]
  | served hclose _ _ _ _ hread hwrite =>
      obtain ⟨hio, hclosed⟩ := hread.peer_io
      obtain ⟨hio', hclosed'⟩ := hwrite.peer_io
      have hsame : RelaySends me env (maskReady (storeMask c.events events) .read)
          (c.withMask events) d ↔ WritesPeer me events env c d := by
        have hdelivered : (c.withMask events).delivered env.read = c.delivered env.read := by
          cases c <;> rfl
        simp only [WritesPeer, RelaySends, hclose, true_and, Conn.withMask_plainManager,
          hdelivered]
      refine ⟨?_, hclosed'.trans hclosed⟩
      rw [hio', hio]
      simp only [hsame]

theorem Handled.peer_exchanged (h : Handled me events env c d c' d') : d.Exchanged d' := by
  obtain ⟨hio, hclosed⟩ := h.peer_io
  refine .of_io hio ?_ hclosed
  split <;> simp

end Zroxy
