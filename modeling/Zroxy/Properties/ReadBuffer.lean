import Zroxy.Events.SslEffects

/-!
# The read buffer of an SSL connection

`on_read` receives behind what is pending, raises the counter, hands the bytes
to OpenSSL from offset 0 on, and lowers the counter by what it received,
whatever came of it. `HandedOver` is what that amounts to as long as `BIO_write`
takes all it is offered: the buffer is empty at the start of each event, so both
offsets are 0, the last byte stays NUL, the buffer never grows, and what went
into `rbio` is what was received.
-/

namespace Zroxy

open OffsetMemory Runs

/-- Each `BIO_write` takes all the bytes that were received. -/
def ReadEnv.AcceptsInFull (env : ReadEnv) : Prop :=
  ∀ k, env.recv = .received k → ∀ i, (k.length : ℤ) ≤ (env.rounds i).bioWrite

namespace SslConn

/-- The part of the state that ciphertext passes on its way to OpenSSL. -/
def readSide (c : SslConn) : BufferManager × List Byte × List Byte :=
  (c.readBufferManager, c.streams.fed, c.streams.received)

theorem roundBody_readSide (grow : PlainGrowth) (c : SslConn) (r : Round) :
    (c.roundBody grow r).1.readSide = c.readSide :=
  Untouched.roundBody grow ⟨fun _ _ => rfl, fun _ => rfl⟩ (fun _ _ => rfl) c r

theorem proccessSslBytes_done (grow : PlainGrowth) (rounds : ℕ → Round) (fuel i : ℕ)
    (base : ℤ) (c : SslConn) : proccessSslBytes grow rounds fuel i base 0 c = (c, 0) := by
  cases fuel with
  | zero => rfl
  | succ fuel => rw [proccessSslBytes, if_neg (lt_irrefl 0)]

/-- **One turn does it**: a `BIO_write` that takes all bytes is the only one,
however the turn ends. -/
theorem proccessSslBytes_readSide (grow : PlainGrowth) {rounds : ℕ → Round} {n i : ℕ}
    (base : ℤ) (c : SslConn) (hn : 0 < n) (hfull : (n : ℤ) ≤ (rounds i).bioWrite) :
    (proccessSslBytes grow rounds n i base n c).1.readSide = (c.feed base n).readSide := by
  obtain ⟨fuel, rfl⟩ := Nat.exists_eq_succ_of_ne_zero hn.ne'
  have hbody := roundBody_readSide grow (c.feed base fuel.succ) (rounds i)
  have hmin : min (rounds i).bioWrite (fuel.succ : ℤ) = fuel.succ := min_eq_right hfull
  have hpos : (0 : ℤ) < fuel.succ := by exact_mod_cast hn
  rw [proccessSslBytes, if_pos hpos]
  simp only [hmin, if_neg (not_le.mpr hpos), sub_self]
  rcases hturn : (c.feed base fuel.succ).roundBody grow (rounds i) with ⟨c₁, _ | code⟩ <;>
    rw [hturn] at hbody
  · simpa only [proccessSslBytes_done] using hbody
  · exact hbody

/-- The read buffer is empty and has never grown, every `recv` was given a
region inside it, and OpenSSL has got what was received. The last byte is what
keeps the buffer from growing. -/
structure HandedOver (c : SslConn) : Prop where
  ptr_eq : c.readBufferManager.currentBufferPtr = 0
  max_eq : c.readBufferManager.maxSizeOfBuffer = readBufSize + 1
  sentinel : c.readBufferManager.buffer readBufSize = 0
  never_doubled : c.readBufferManager.EachAccess .clear fun _ => False
  receives_inside : c.readBufferManager.EachAccess .receive Access.Inside
  fed_eq : c.streams.fed = c.streams.received

variable {c : SslConn}

/-- The growth at the start of an event does not happen. -/
theorem HandedOver.growIfFull (h : c.HandedOver) :
    c.readBufferManager.growIfFull = c.readBufferManager.probed := by
  apply if_neg
  unfold BufferManager.shouldResizeBuffer
  rw [h.max_eq, add_sub_cancel_right, h.sentinel]
  exact Bool.false_ne_true

/-- The buffer with the region offered to `recv` on record. -/
def offeredRegion (c : SslConn) : BufferManager :=
  c.readBufferManager.probed.touch .receive 0 readBufSize

theorem HandedOver.offeredRegion (h : c.HandedOver) :
    c.offeredRegion.EachAccess .clear (fun _ => False) ∧
      c.offeredRegion.EachAccess .receive Access.Inside := by
  unfold SslConn.offeredRegion
  constructor
  · rw [BufferManager.eachAccess_touch_other (by rintro ⟨⟩),
      BufferManager.eachAccess_probed (by rintro ⟨⟩)]
    exact h.never_doubled
  · rw [BufferManager.eachAccess_touch, BufferManager.eachAccess_probed (by rintro ⟨⟩)]
    refine ⟨h.receives_inside, fun _ => ⟨le_refl _, ?_⟩⟩
    show 0 + (readBufSize : ℤ) ≤ c.readBufferManager.maxSizeOfBuffer
    rw [h.max_eq]
    omega

/-- **A received chunk** passes through the buffer: it is stored at offset 0,
handed on from offset 0, and taken off again. -/
theorem HandedOver.onReadEvent_received (h : c.HandedOver) (grow : PlainGrowth) {env : ReadEnv}
    {k : Chunk} (hrecv : env.recv = .received k)
    (hfull : (k.length : ℤ) ≤ (env.rounds 0).bioWrite) :
    (c.onReadEvent grow env).1.readSide =
      (BufferManager.consume { c.offeredRegion with
          buffer := store c.readBufferManager.buffer 0 k.bytes
          currentBufferPtr := k.length } k.length,
        c.streams.fed ++ k.bytes, c.streams.received ++ k.bytes) := by
  unfold onReadEvent
  rw [hrecv, h.growIfFull]
  simp only
  set c₁ : SslConn := { c with
    readBufferManager := _, streams := { c.streams with received := _ }, io := _ } with hc₁
  have hloop := proccessSslBytes_readSide grow 0 c₁ k.length_pos hfull
  have hptr : c.readBufferManager.probed.currentBufferPtr = 0 := h.ptr_eq
  have hmanager : c₁.readBufferManager = { c.offeredRegion with
      buffer := store c.readBufferManager.buffer 0 k.bytes
      currentBufferPtr := k.length } := by
    simp only [hc₁, hptr, BufferManager.nbyteWrittenToBuffer, BufferManager.touch_ptr, zero_add]
    rfl
  have hfed : (c₁.feed 0 k.length).streams.fed = c.streams.fed ++ k.bytes := by
    show c.streams.fed ++ window c₁.readBufferManager.buffer 0 k.length = _
    rw [hmanager, window_store]
  have hmanager' : (c₁.feed 0 k.length).readBufferManager = c₁.readBufferManager := rfl
  simp only [readSide, Prod.mk.injEq] at hloop ⊢
  obtain ⟨hloop₁, hloop₂, hloop₃⟩ := hloop
  refine ⟨?_, ?_, hloop₃⟩
  · rw [hloop₁, hmanager', hmanager]
  · rw [hloop₂, hfed]

/-- **One event** leaves the buffer empty again, and hands on what it received. -/
theorem HandedOver.onReadEvent (h : c.HandedOver) (grow : PlainGrowth) {env : ReadEnv}
    (hfull : env.AcceptsInFull) :
    (c.onReadEvent grow env).1.HandedOver ∧
      (c.onReadEvent grow env).1.streams.received =
        c.streams.received ++ env.recv.delivered := by
  obtain ⟨hclear, hreceive⟩ := h.offeredRegion
  -- without bytes received, only the offered region is new
  have hnothing : ∀ io, HandedOver { c with readBufferManager := c.offeredRegion, io := io } :=
    fun _ => ⟨h.ptr_eq, h.max_eq, h.sentinel, hclear, hreceive, h.fed_eq⟩
  have hoffered : c.readBufferManager.growIfFull.touch .receive
      c.readBufferManager.growIfFull.currentBufferPtr readBufSize = c.offeredRegion := by
    rw [h.growIfFull, BufferManager.probed_ptr, h.ptr_eq]
    rfl
  cases hrecv : env.recv with
  | received k =>
      have hread := h.onReadEvent_received grow hrecv (hfull k hrecv 0)
      simp only [readSide, Prod.mk.injEq] at hread
      obtain ⟨hmanager, hfed, hreceived⟩ := hread
      refine ⟨⟨?_, ?_, ?_, ?_, ?_, ?_⟩, hreceived⟩
      · rw [hmanager]
        exact sub_self _
      · rw [hmanager]
        exact h.max_eq
      · rw [hmanager]
        -- nothing is moved, and the chunk ends in front of the last byte
        refine (move_outside (by right; simp)).trans ?_
        show store c.readBufferManager.buffer 0 k.bytes readBufSize = 0
        rw [store_above ((zero_add _).trans_le k.length_le_int)]
        exact h.sentinel
      · rw [hmanager]
        exact hclear
      · rw [hmanager]
        exact hreceive
      · rw [hfed, hreceived, h.fed_eq]
  | endOfStream | wouldBlock | error =>
      have hevent : (c.onReadEvent grow env).1 =
          { c with readBufferManager := c.offeredRegion, io := c.io ++ [.recv] } := by
        unfold SslConn.onReadEvent
        rw [hrecv]
        simp only [hoffered]
      rw [hevent]
      exact ⟨hnothing _, (List.append_nil _).symm⟩

/-! ## Runs -/

def handleRead (side : Side) (c : SslConn) (env : ReadEnv) : Except Fault SslConn :=
  .ok (c.onReadEvent (plainGrowth side) env).1

theorem handedOver_makeSslConn (heap : ℕ → Mem Byte) (fd : ℤ) :
    (makeSslConn heap fd).HandedOver where
  ptr_eq := rfl
  max_eq := rfl
  sentinel := by
    show fill (heap 2) 0 (readBufSize + 1) 0 readBufSize = 0
    exact fill_inside ⟨by decide, by decide⟩
  never_doubled := by rintro a ⟨⟩
  receives_inside := by rintro a ⟨⟩
  fed_eq := rfl

theorem HandedOver.run_received {side : Side} {c' : SslConn} (h : c.HandedOver)
    {es : List ReadEnv} (hfull : ∀ env ∈ es, env.AcceptsInFull)
    (hrun : run (handleRead side) c es = .ok c') :
    c'.streams.received = c.streams.received ++ es.flatMap fun env => env.recv.delivered := by
  induction es generalizing c with
  | nil =>
      cases hrun
      exact (List.append_nil _).symm
  | cons env es ih =>
      obtain ⟨henv, hes⟩ := List.forall_mem_cons.mp hfull
      obtain ⟨hkept, hreceived⟩ := h.onReadEvent (plainGrowth side) henv
      obtain ⟨c₁, ⟨⟩, hrest⟩ := run_cons_ok hrun
      rw [ih hkept hes hrest, hreceived, List.append_assoc, List.flatMap_cons]

/-- **Ciphertext is handed over.** From a new SSL connection of either side,
through any run of read events whose every `BIO_write` takes all it is offered,
the read buffer is empty and as large as it was at the start of each event, each
`recv` stays inside it, and OpenSSL has got what was received: the chunks of the
run one after the other. -/
theorem handed_over_run (side : Side) (heap : ℕ → Mem Byte) (fd : ℤ) (es : List ReadEnv)
    (hfull : ∀ env ∈ es, env.AcceptsInFull) :
    Always (handleRead side) HandedOver (makeSslConn heap fd) es ∧
      ∀ c, run (handleRead side) (makeSslConn heap fd) es = .ok c →
        c.streams.fed = es.flatMap fun env => env.recv.delivered := by
  have hnew := handedOver_makeSslConn heap fd
  have halways : Always (handleRead side) HandedOver (makeSslConn heap fd) es := by
    refine always_of_eachStep ?_ hnew (eachStep_of_mem hfull _)
    rintro c env c' hc henv ⟨⟩
    exact (hc.onReadEvent (plainGrowth side) henv).1
  refine ⟨halways, fun c hrun => ?_⟩
  rw [(halways.last hrun).fed_eq, hnew.run_received hfull hrun]
  rfl

/-- A byte whose processing fails for good, and another one behind it. -/
def failingRead : ReadEnv where
  recv := .received (.single 23)
  rounds := fun _ =>
    { bioWrite := 1
      initFinished := false
      handshake := ⟨.syscall, .empty, false⟩
      reads := ⟨[], .none, .empty⟩ }

theorem handed_over_run_failingRead :
    Always (handleRead .backend) HandedOver (makeSslConn (fun _ _ => 0) 4)
        [failingRead, failingRead] ∧
      ∀ c, run (handleRead .backend) (makeSslConn (fun _ _ => 0) 4)
        [failingRead, failingRead] = .ok c →
        c.streams.fed = [failingRead, failingRead].flatMap fun env => env.recv.delivered := by
  apply handed_over_run
  intro env henv
  obtain rfl : env = failingRead := by simpa using henv
  rintro k ⟨⟩ i
  exact le_refl _

end SslConn
end Zroxy
