import Zroxy.Events.ClientRelay

/-!
# Host rewriting and segmentation

Every readable event hands the bytes pending at the client to the rewriting on
their own. So what reaches an SSL backend is each piece of the plaintext, as the
rewriting leaves that piece, and it is the same for every segmentation exactly
when no piece of the plaintext is a request whose Host would be rewritten.
-/

namespace Zroxy

open OffsetMemory Runs

/-! ## Piece by piece -/

def hostRewrittenAll : List (List Byte) → Except Fault (List Byte)
  | [] => .ok []
  | piece :: pieces => (hostRewritten piece).bind fun bytes =>
      (hostRewrittenAll pieces).map (bytes ++ ·)

theorem hostRewrittenAll_append (pieces pieces' : List (List Byte)) :
    hostRewrittenAll (pieces ++ pieces') = (hostRewrittenAll pieces).bind fun bytes =>
      (hostRewrittenAll pieces').map (bytes ++ ·) := by
  induction pieces with
  | nil =>
      cases h : hostRewrittenAll pieces' <;> simp [hostRewrittenAll, h, Except.bind, Except.map]
  | cons piece pieces ih =>
      rw [List.cons_append, hostRewrittenAll, hostRewrittenAll, ih]
      cases hostRewritten piece with
      | error f => rfl
      | ok bytes =>
          cases hostRewrittenAll pieces with
          | error f => rfl
          | ok bytes' =>
              cases hostRewrittenAll pieces' <;>
                simp [Except.bind, Except.map, List.append_assoc]

theorem hostRewrittenAll_untouched {pieces : List (List Byte)}
    (h : ∀ piece ∈ pieces, HostUntouched piece) :
    hostRewrittenAll pieces = .ok pieces.flatten := by
  induction pieces with
  | nil => rfl
  | cons piece pieces ih =>
      have hpiece := (hostRewritten_eq_iff piece).mpr (h piece List.mem_cons_self)
      have hrest := ih fun piece' hmem => h piece' (List.mem_cons_of_mem _ hmem)
      simp [hostRewrittenAll, hpiece, hrest, Except.bind, Except.map]

theorem hostUntouched_of_short {piece : List Byte} (h : piece.length < 2) :
    HostUntouched piece := by
  intro parsed hparse _
  have := two_le_of_phrParseRequest hparse
  omega

def singles (w : List Byte) : List (List Byte) := w.map fun x => [x]

structure CutOf (w : List Byte) (pieces : List (List Byte)) : Prop where
  flatten_eq : pieces.flatten = w
  ne_nil : ∀ piece ∈ pieces, piece ≠ []

theorem CutOf.append {v w : List Byte} {pieces pieces' : List (List Byte)} (h : CutOf v pieces)
    (g : CutOf w pieces') : CutOf (v ++ w) (pieces ++ pieces') where
  flatten_eq := by rw [List.flatten_append, h.flatten_eq, g.flatten_eq]
  ne_nil := fun piece hmem => (List.mem_append.mp hmem).elim (h.ne_nil piece) (g.ne_nil piece)

theorem cutOf_single {piece : List Byte} (h : piece ≠ []) : CutOf piece [piece] :=
  ⟨List.append_nil _, by simpa using h⟩

theorem cutOf_singles (w : List Byte) : CutOf w (singles w) := by
  induction w with
  | nil => exact ⟨rfl, fun _ hmem => absurd hmem List.not_mem_nil⟩
  | cons x w ih => exact (cutOf_single (List.cons_ne_nil x [])).append ih

theorem hostRewrittenAll_singles (w : List Byte) : hostRewrittenAll (singles w) = .ok w := by
  have huntouched : ∀ piece ∈ singles w, HostUntouched piece := by
    intro piece hpiece
    obtain ⟨x, -, rfl⟩ := List.mem_map.mp hpiece
    exact hostUntouched_of_short (by simp)
  rw [hostRewrittenAll_untouched huntouched, (cutOf_singles w).flatten_eq]

/-- **All ways of cutting** the plaintext give the same bytes exactly when no
piece of it is touched. -/
theorem hostRewrittenAll_const_iff (w : List Byte) :
    (∀ pieces pieces', CutOf w pieces → CutOf w pieces' →
        hostRewrittenAll pieces = hostRewrittenAll pieces') ↔
      ∀ piece, piece <:+: w → HostUntouched piece := by
  constructor
  · rintro h piece ⟨a, z, rfl⟩
    by_cases hne : piece = []
    · exact hostUntouched_of_short (by simp [hne])
    · -- the piece on its own, against all of it byte by byte
      have hsame := h _ _ (cutOf_singles _)
        (((cutOf_singles a).append (cutOf_single hne)).append (cutOf_singles z))
      rw [← hostRewritten_eq_iff]
      simp only [hostRewrittenAll_append, hostRewrittenAll_singles, hostRewrittenAll] at hsame
      cases hpiece : hostRewritten piece with
      | error f =>
          rw [hpiece] at hsame
          cases hsame
      | ok bytes =>
          rw [hpiece] at hsame
          have hbytes := Except.ok.inj hsame
          simp only [List.append_nil, List.append_assoc, List.append_cancel_left_eq,
            List.append_cancel_right_eq] at hbytes
          rw [hbytes]
  · intro h
    have huntouched : ∀ pieces, CutOf w pieces → hostRewrittenAll pieces = .ok w := by
      rintro pieces ⟨rfl, -⟩
      exact hostRewrittenAll_untouched fun piece hmem => h piece (List.infix_of_mem_flatten hmem)
    intro pieces pieces' hcut hcut'
    rw [huntouched pieces hcut, huntouched pieces' hcut']

/-! ## Runs of readable events -/

namespace ProxyConnection

variable {p : ProxyConnection} {c b : SslConn}

/-- The events deliver the pieces, one after the other. -/
def Segmented (p : ProxyConnection) : List (List Byte) → List EventEnv → Prop
  | [], [] => True
  | piece :: pieces, env :: envs =>
      (∃ c b, p.client.params = .ssl c ∧ p.backend.params = .ssl b ∧ Delivers c b env piece) ∧
        ∀ p', p.peerCallback (readable env) = .ok p' → Segmented p' pieces envs
  | _, _ => False

/-- Everything appended to the backend's `encrypt_buffer_manager` by the end of
the run. -/
def forwarded (p : ProxyConnection) (envs : List EventEnv) : Except Fault (List Byte) :=
  (run peerCallback p (envs.map readable)).map fun p' => p'.backend.params.streams.queued

theorem forwarded_eq {pieces : List (List Byte)} {envs : List EventEnv}
    (h : p.RelayReady c b) (hne : ∀ piece ∈ pieces, piece ≠ []) (hs : p.Segmented pieces envs) :
    p.forwarded envs = (hostRewrittenAll pieces).map (b.streams.queued ++ ·) := by
  induction pieces generalizing p c b envs with
  | nil =>
      cases envs with
      | nil => simp [forwarded, run, hostRewrittenAll, Except.map, h.backend, Conn.streams]
      | cons env envs => exact hs.elim
  | cons piece pieces ih =>
      cases envs with
      | nil => exact hs.elim
      | cons env envs =>
          obtain ⟨⟨c₁, b₁, hc, hb, hd⟩, hrest⟩ := hs
          cases h.client.symm.trans hc
          cases h.backend.symm.trans hb
          have hstep := relayReady_step h (hne piece List.mem_cons_self) hd
          rw [hostRewrittenAll]
          -- a faulting piece ends the run; behind any other the path is ready again
          cases hpiece : hostRewritten piece with
          | error f =>
              rw [hpiece] at hstep
              simp only [forwarded, List.map_cons, run]
              rw [hstep]
              rfl
          | ok bytes =>
              rw [hpiece] at hstep
              obtain ⟨p', c', b', hp', hready, hqueued⟩ := hstep
              have hrun : p.forwarded (env :: envs) = p'.forwarded envs := by
                simp only [forwarded, List.map_cons, run, hp', Except.bind]
              have hrest' := ih hready (fun piece' hmem => hne piece' (List.mem_cons_of_mem _ hmem))
                (hrest p' hp')
              rw [hrun, hrest', hqueued]
              cases hostRewrittenAll pieces <;> simp [Except.bind, Except.map]

theorem exists_segmented {pieces : List (List Byte)} (h : p.RelayReady c b)
    (hne : ∀ piece ∈ pieces, piece ≠ []) : ∃ envs, p.Segmented pieces envs := by
  induction pieces generalizing p c b with
  | nil => exact ⟨[], trivial⟩
  | cons piece pieces ih =>
      have hpiece := hne piece List.mem_cons_self
      have hd := delivers_deliveryOf h piece
      have hstep := relayReady_step h hpiece hd
      set env := deliveryOf piece (b.writingBufferManager.currentBufferPtr.toNat + 1)
      cases hrewrite : hostRewritten piece with
      | error f =>
          rw [hrewrite] at hstep
          refine ⟨[env], ⟨c, b, h.client, h.backend, hd⟩, fun p' hp' => ?_⟩
          cases hstep.symm.trans hp'
      | ok bytes =>
          rw [hrewrite] at hstep
          obtain ⟨p', c', b', hp', hready, -⟩ := hstep
          obtain ⟨envs, henvs⟩ := ih hready fun piece' hmem =>
            hne piece' (List.mem_cons_of_mem _ hmem)
          refine ⟨env :: envs, ⟨c, b, h.client, h.backend, hd⟩, fun p'' hp'' => ?_⟩
          cases hp'.symm.trans hp''
          exact henvs

/-- However the plaintext is cut, the same bytes are appended to the backend's
`encrypt_buffer_manager`. -/
def SegmentationIndependent (p : ProxyConnection) (w : List Byte) : Prop :=
  ∀ pieces pieces' envs envs', CutOf w pieces → CutOf w pieces' →
    p.Segmented pieces envs → p.Segmented pieces' envs' → p.forwarded envs = p.forwarded envs'

theorem map_append_inj {xs : List Byte} {r r' : Except Fault (List Byte)}
    (h : r.map (xs ++ ·) = r'.map (xs ++ ·)) : r = r' := by
  cases r with
  | error f =>
      cases r' with
      | error f' => exact h
      | ok ys => cases h
  | ok ys =>
      cases r' with
      | error f => cases h
      | ok ys' => rw [List.append_cancel_left (Except.ok.inj h)]

/-- **Segmentation, exactly.** On a path that is ready, what the backend is
given does not depend on the segmentation of the plaintext if and only if no
contiguous piece of the plaintext is a request whose Host is touched. -/
theorem segmentationIndependent_iff (h : p.RelayReady c b) (w : List Byte) :
    p.SegmentationIndependent w ↔ ∀ piece, piece <:+: w → HostUntouched piece := by
  rw [← hostRewrittenAll_const_iff]
  constructor
  · intro hind pieces pieces' hcut hcut'
    obtain ⟨envs, henvs⟩ := exists_segmented h hcut.ne_nil
    obtain ⟨envs', henvs'⟩ := exists_segmented h hcut'.ne_nil
    have hsame := hind pieces pieces' envs envs' hcut hcut' henvs henvs'
    rw [forwarded_eq h hcut.ne_nil henvs, forwarded_eq h hcut'.ne_nil henvs'] at hsame
    exact map_append_inj hsame
  · intro hconst pieces pieces' envs envs' hcut hcut' henvs henvs'
    rw [forwarded_eq h hcut.ne_nil henvs, forwarded_eq h hcut'.ne_nil henvs',
      hconst pieces pieces' hcut hcut']

/-- A new connection with two SSL sides, once the backend has reported that it
is writable. -/
def writableConnection : ProxyConnection :=
  ((newConnection (fun _ _ _ => 0) 4 .sslConn 5 .sslConn).isReadyEvent .backend epollOut .write).1

theorem relayReady_writableConnection : ∃ c b, writableConnection.RelayReady c b :=
  ⟨_, _,
    { live := fun s => by cases s <;> rfl
      running := show (0 : ℤ) ≠ timerIsUp by decide
      client := rfl
      backend := rfl
      writable := by decide
      plain_ptr := rfl
      plain_max := by decide
      encrypt_ptr := rfl
      writing_ptr := le_refl 0 }⟩

/-- `GET / HTTP/1.1`, `Host:a` and an empty line, each ended by LF. -/
def getRequest : List Byte :=
  [71, 69, 84, 32, 47, 32, 72, 84, 84, 80, 47, 49, 46, 49, 10, 72, 111, 115, 116, 58, 97, 10, 10]

theorem segmentationIndependent_getRequest_iff : ∃ c b, writableConnection.RelayReady c b ∧
    (writableConnection.SegmentationIndependent getRequest ↔
      ∀ piece, piece <:+: getRequest → HostUntouched piece) := by
  obtain ⟨c, b, h⟩ := relayReady_writableConnection
  exact ⟨c, b, h, segmentationIndependent_iff h getRequest⟩

/-- In one piece the request has its Host rewritten (and its end cut off); cut
behind the method it goes through as it is. -/
theorem cut_request_keeps_its_host :
    ¬ ∀ (p : ProxyConnection) (c b : SslConn), p.RelayReady c b →
      ∀ w, p.SegmentationIndependent w := by
  intro hclaim
  obtain ⟨c, b, h⟩ := relayReady_writableConnection
  have hwhole : CutOf getRequest [getRequest] := cutOf_single (by decide)
  have hcut : CutOf getRequest [getRequest.take 3, getRequest.drop 3] := ⟨by decide, by decide⟩
  obtain ⟨envs, henvs⟩ := exists_segmented h hwhole.ne_nil
  obtain ⟨envs', henvs'⟩ := exists_segmented h hcut.ne_nil
  have hsame := hclaim _ c b h getRequest _ _ envs envs' hwhole hcut henvs henvs'
  rw [forwarded_eq h hwhole.ne_nil henvs, forwarded_eq h hcut.ne_nil henvs'] at hsame
  exact absurd (map_append_inj hsame) (by decide)

end ProxyConnection
end Zroxy
