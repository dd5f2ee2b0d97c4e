import Mathlib.Data.Finset.Card
import Zroxy.Properties.ServerRuns

/-!
# What a client costs

The sockets of a connection are closed in time, its timer never is. So the number
of open descriptors is that of the connections ever made, but for the sockets
that are still open and a constant (`descriptors_counted_run`), and a process
that may have so many descriptors open serves no more clients than that.
-/

namespace Zroxy

open OffsetMemory Runs Ownership

namespace TimedConnection

/-- The descriptors of a connection that are open. -/
def heldFds (c : TimedConnection) : List ℤ :=
  [.clientSock, .backendSock, .proxyTimerSock].filterMap c.held

theorem mem_heldFds {c : TimedConnection} {fd : ℤ} :
    fd ∈ c.heldFds ↔ ∃ t, c.held t = some fd := by
  rw [heldFds, List.mem_filterMap]
  constructor
  · rintro ⟨t, -, ht⟩
    exact ⟨t, ht⟩
  · rintro ⟨t, ht⟩
    exact ⟨t, by cases t <;> simp, ht⟩

/-- Of a connection, the sockets that have not been closed. -/
def openSockets (c : TimedConnection) : ℕ :=
  (!c.proxy.client.params.isClosed).toNat + (!c.proxy.backend.params.isClosed).toNat

theorem length_heldFds (c : TimedConnection) : c.heldFds.length = 1 + c.openSockets := by
  unfold heldFds openSockets
  simp only [List.filterMap_cons, held, Conn.holding]
  cases c.proxy.client.params.isClosed <;> cases c.proxy.backend.params.isClosed <;> rfl

end TimedConnection

namespace ServerState

variable {s : ServerState} {reserved : Finset ℤ}

def heldFds (s : ServerState) : List ℤ :=
  (s.held .listener).toList ++ s.conns.flatMap TimedConnection.heldFds

theorem mem_heldFds {fd : ℤ} : fd ∈ s.heldFds ↔ ∃ h, s.held h = some fd := by
  rw [heldFds, List.mem_append, Option.mem_toList, List.mem_flatMap]
  constructor
  · rintro (hlisten | ⟨c, hc, hfd⟩)
    · exact ⟨_, hlisten⟩
    · obtain ⟨i, hi⟩ := List.mem_iff_getElem?.mp hc
      obtain ⟨t, ht⟩ := TimedConnection.mem_heldFds.mp hfd
      refine ⟨.proxy (i, t), ?_⟩
      rw [← ht]
      exact perHandler_some hi t
  · rintro ⟨_ | ⟨i, t⟩, hheld⟩
    · exact Or.inl hheld
    · right
      cases hc : s.conns[i]? with
      | none => simp [held, perHandler, hc] at hheld
      | some c =>
          have hsome : s.held (.proxy (i, t)) = c.held t := perHandler_some hc t
          rw [hsome] at hheld
          exact ⟨c, List.mem_of_getElem? hc, TimedConnection.mem_heldFds.mpr ⟨t, hheld⟩⟩

theorem Accounted.nodup_heldFds (hacc : Accounted reserved s) : s.heldFds.Nodup := by
  have hconn : ∀ i (hi : i < s.conns.length) fd, fd ∈ (s.conns[i]).heldFds →
      ∃ t, s.held (.proxy (i, t)) = some fd := by
    intro i hi fd hfd
    obtain ⟨t, ht⟩ := TimedConnection.mem_heldFds.mp hfd
    refine ⟨t, ?_⟩
    rw [← ht]
    exact perHandler_some (List.getElem?_eq_getElem hi) t
  rw [heldFds, List.nodup_append', List.nodup_flatMap]
  refine ⟨?_, ⟨?_, ?_⟩, ?_⟩
  · cases s.held .listener <;> simp
  · -- within a connection
    intro c hc
    obtain ⟨i, hi⟩ := List.mem_iff_getElem?.mp hc
    refine List.Nodup.filterMap ?_ (by decide)
    intro t t' fd ht ht'
    have hheld : ∀ t, c.held t = some fd → s.held (.proxy (i, t)) = some fd := by
      intro t ht
      rw [← ht]
      exact perHandler_some hi t
    have heq := hacc.unique _ _ fd (hheld t ht) (hheld t' ht')
    cases heq
    rfl
  · -- between two of them
    rw [List.pairwise_iff_getElem]
    intro i j hi hj hij fd hfd hfd'
    obtain ⟨t, ht⟩ := hconn i hi fd hfd
    obtain ⟨t', ht'⟩ := hconn j hj fd hfd'
    have heq := hacc.unique _ _ fd ht ht'
    cases heq
    exact absurd hij (lt_irrefl i)
  · -- between one and the listening socket
    intro fd hfd hfd'
    rw [Option.mem_toList] at hfd
    obtain ⟨c, hc, hmem⟩ := List.mem_flatMap.mp hfd'
    obtain ⟨i, hi, rfl⟩ := List.mem_iff_getElem.mp hc
    obtain ⟨t, ht⟩ := hconn i hi fd hmem
    have heq := hacc.unique _ _ fd hfd ht
    cases heq

/-- **The open descriptors, counted.** -/
theorem Accounted.card_openFds (hacc : Accounted reserved s) :
    s.table.descriptors.openFds.card = reserved.card + (registeredAfter s.listenIo).toNat +
      s.conns.length + (s.conns.map TimedConnection.openSockets).sum := by
  have hdisjoint : Disjoint reserved s.heldFds.toFinset := by
    rw [Finset.disjoint_right]
    intro fd hfd
    obtain ⟨h, hheld⟩ := mem_heldFds.mp (List.mem_toFinset.mp hfd)
    exact hacc.not_reserved h fd hheld
  have hunion : s.table.descriptors.openFds = reserved ∪ s.heldFds.toFinset := by
    ext fd
    rw [hacc.mem_iff, Finset.mem_union, List.mem_toFinset, mem_heldFds]
  have hlisten : (s.held .listener).toList.length = (registeredAfter s.listenIo).toNat := by
    simp only [held, perHandler]
    cases registeredAfter s.listenIo <;> rfl
  have hsum : (s.conns.flatMap TimedConnection.heldFds).length =
      s.conns.length + (s.conns.map TimedConnection.openSockets).sum := by
    induction s.conns with
    | nil => rfl
    | cons c conns ih =>
        simp only [List.flatMap_cons, List.length_append, ih, c.length_heldFds, List.length_cons,
          List.map_cons, List.sum_cons]
        omega
  rw [hunion, Finset.card_union_of_disjoint hdisjoint,
    List.toFinset_card_of_nodup hacc.nodup_heldFds, heldFds, List.length_append, hlisten, hsum]
  omega

end ServerState

/-- **What a client costs.** Along a run in which a backend is found for every
client, the open descriptors are those reserved, the listening socket as long as
it is there, the sockets that have not been closed, and one more, its timer, for
every connection ever made, whether it has ended or not. -/
theorem descriptors_counted_run (env : MainEnv) (openFds : Finset ℤ) (s : ServerState)
    (hfresh : env.Fresh openFds) (hstart : startServer env openFds = some s)
    (es : List ServerEvent)
    (hfound : EachStep ServerState.step ServerState.BackendsFound s es) :
    Always ServerState.step (fun s' => s'.table.descriptors.openFds.card =
      (env.reserved openFds).card + (registeredAfter s'.listenIo).toNat + s'.conns.length +
        (s'.conns.map TimedConnection.openSockets).sum) s es :=
  ServerState.always_accounted (fun _ _ hacc => hacc.card_openFds) (startServer_inv hstart)
    (startServer_accounted hfresh hstart) hfound

/-- One client is counted. -/
theorem descriptors_counted_one : ∃ s, startServer oneAddress {0, 1, 2} = some s ∧
    Always ServerState.step (fun s' => s'.table.descriptors.openFds.card =
      (oneAddress.reserved {0, 1, 2}).card + (registeredAfter s'.listenIo).toNat +
        s'.conns.length + (s'.conns.map TimedConnection.openSockets).sum) s acceptOne :=
  ⟨_, rfl, descriptors_counted_run oneAddress {0, 1, 2} _ oneAddress_fresh rfl acceptOne
    (acceptOne_found rfl)⟩

end Zroxy
