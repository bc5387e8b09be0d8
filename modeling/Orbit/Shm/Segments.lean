import Orbit.Exchange.Segment
import Orbit.Inbox.Segment
import Orbit.Quota.Shm.Segment
import Orbit.Ring.Segment
import Orbit.Stream.Segment

/-! What the sizes of segments come to.  Quotas and rings check their arithmetic, and refuse what
does not fit; inboxes, streams and payload arenas do not, and rely on the bounds of their specs. -/

namespace OrbitShm

open Orbit.Atomic

/-- A checked layout is the one meant and exact, and none that fits is refused for an overflow. -/
theorem checked_segments_exact (g : OrbitQuota.Geometry) (owners : Nat)
    (retention : OrbitQuota.Retention) (capacity payloadCapacity : Nat)
    (topology : OrbitRing.RingTopology) (fleetCapacity : Nat) :
    (∀ layout, OrbitQuota.Shm.Layout.withRetention g owners retention = some layout →
      layout = .meant g owners retention ∧ layout.Exact g owners retention) ∧
    (OrbitQuota.Shm.Layout.compute g owners retention = none ↔
      2 ^ 64 ≤ (OrbitQuota.Shm.Layout.meant g owners retention).size) ∧
    (∀ layout, OrbitRing.checkedLayout capacity payloadCapacity topology fleetCapacity =
        .ok layout →
      layout.2.2 = OrbitRing.sizeMeant capacity payloadCapacity topology fleetCapacity ∧
      OrbitRing.Mapping.Exact ⟨capacity, OrbitRing.laneCount topology fleetCapacity, layout.1,
        layout.2.1, layout.2.2⟩ payloadCapacity) ∧
    (OrbitRing.Accepted capacity payloadCapacity fleetCapacity →
      ((∃ layout, OrbitRing.checkedLayout capacity payloadCapacity topology fleetCapacity =
          .ok layout) ↔
        OrbitRing.sizeMeant capacity payloadCapacity topology fleetCapacity < 2 ^ 64)) := by
  refine ⟨fun layout h => ?_, ?_, fun layout h => ?_, fun haccepted => ?_⟩
  · exact ⟨(OrbitQuota.Shm.Layout.withRetention_some h).1,
      OrbitQuota.Shm.Layout.withRetention_exact h⟩
  · rw [Option.eq_none_iff_forall_ne_some]
    simp only [ne_eq, OrbitQuota.Shm.Layout.compute_some, not_and]
    exact ⟨fun h => Nat.not_lt.mp fun hlt => h _ hlt rfl,
      fun h layout hlt => absurd hlt (Nat.not_lt.mpr h)⟩
  · obtain ⟨-, -, heq⟩ := OrbitRing.checkedLayout_eq_ok.mp h
    exact ⟨(congrArg (·.2.2) heq).symm, OrbitRing.checkedLayout_exact h⟩
  · simp only [OrbitRing.checkedLayout_eq_ok, exists_and_left, exists_eq', and_true]
    exact and_iff_right haccepted

/-- A stream's segment is always exact; an inbox's and an arena's are just when their bytes are
fewer than there are words. -/
theorem unchecked_segments_exact_iff (inbox : OrbitInbox.Geometry) (stream : OrbitStream.Geometry)
    (arena : OrbitExchange.Geometry) :
    inbox.Exact ∧ stream.Exact ∧ arena.Exact ↔ inbox.lines < 2 ^ 58 ∧ arena.bytes < 2 ^ 64 :=
  ⟨fun h => ⟨h.1.lines_lt, h.2.2.bytes_lt⟩,
    fun h => ⟨inbox.exact h.1, stream.exact, arena.exact h.2⟩⟩

theorem lanes_pow : isPowerOfTwo (2 ^ 31) = true := by decide
theorem lanes_lt : 2 ^ 31 < 2 ^ 32 := by decide
theorem payload_pos : 0 < 2 ^ 32 - 1 := by decide
theorem payload_lt : 2 ^ 32 - 1 < 2 ^ 32 := by decide
theorem arena_valid :
    OrbitExchange.PayloadArenaSpec.validate ⟨0, 2 ^ 31, 2 ^ 31⟩ = .ok () := by decide
theorem fleet_lt : 4 < 2 ^ 16 := by decide

/-- Two lanes of `2 ^ 31` slots of the largest payloads, and four nodes with `2 ^ 31` slots of
`2 ^ 31` bytes, are accepted and not exact. -/
theorem wide_segments_not_exact :
    ¬ (OrbitInbox.Geometry.mk 2 (2 ^ 31) (2 ^ 32 - 1) two_lt_u16 lanes_pow lanes_lt payload_pos
      payload_lt).Exact ∧
    ¬ (OrbitExchange.Geometry.mk ⟨0, 2 ^ 31, 2 ^ 31⟩ 4 arena_valid fleet_lt).Exact :=
  ⟨fun h => absurd (congrArg OrbitInbox.Offsets.segmentBytes h.offsets) (by decide +kernel),
    fun h => absurd (congrArg OrbitExchange.Offsets.segmentSize h.offsets) (by decide +kernel)⟩

end OrbitShm
