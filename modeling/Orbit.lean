import Orbit.Pool.Admission
import Orbit.Pool.Budget
import Orbit.Pool.Availability
import Orbit.Pool.Capacity
import Orbit.Pool.Waiters
import Orbit.Pool.Segment
import Orbit.Stream.Holders
import Orbit.Stream.Fifo
import Orbit.Stream.Exclusive
import Orbit.Stream.Wakes
import Orbit.Exchange.Chunks
import Orbit.Session.SingleUse
import Orbit.Session.Queue
import Orbit.Session.Residue
import Orbit.Link.Forwarding
import Orbit.Inbox.Joining
import Orbit.Inbox.Awake
import Orbit.Client.Final
import Orbit.Client.Wakeups
import Orbit.Atomic.Buffer
import Orbit.Counter.Order
import Orbit.Cache.Sessions
import Orbit.Cache.Convergence
import Orbit.Cache.LastWrite
import Orbit.Arena.Runs
import Orbit.Fleet.Selection
import Orbit.Quota.Gcra
import Orbit.Lock.Fencing
import Orbit.Lock.Replay
import Orbit.Ring.Polling
import Orbit.Link.Recovery
import Orbit.Ids.Unique
import Orbit.Auth.Acceptance
import Orbit.Auth.Limit
import Orbit.Auth.Probes
import Orbit.Auth.Cached
import Orbit.Auth.Finality
import Orbit.Cell.Claims
import Orbit.Cell.Wakes
import Orbit.Quota.Shm.Identity
import Orbit.Quota.Memory.Replacing
import Orbit.Lock.Codec
import Orbit.Lock.Lookup
import Orbit.Ring.Shared
import Orbit.Ring.Backings
import Orbit.Ring.Parked
import Orbit.Exchange.Codec
import Orbit.Cache.Protocol
import Orbit.Metrics.Latest
import Orbit.Stream.Halves
import Orbit.Cache.Replay
import Orbit.Stream.Delivered
import Orbit.Shm.Companions
import Orbit.Shm.Segments
import Orbit.Stream.OfferWakes
import Orbit.Cache.Undone
