import Orbit.Atomic.Sequence
import Mathlib.Data.Finset.Basic
import Mathlib.Data.List.MinMax

/-! The bridge that carries fleet events over a link segment: the lane reader's `accept`, which
publishes an event into the ring and then remembers its counter, beside the driver's `pump`, which
polls the ring and forwards what this process published. Each step of either is one action. -/

namespace OrbitLink

structure NetId where
  node : Nat
  counter : Nat
deriving DecidableEq, Repr

/-- One event of the ring. The topic is kept as its UTF-8 bytes. -/
structure FleetEvent where
  id : NetId
  topic : List UInt8
  payload : List UInt8
  timestampMs : Nat
deriving DecidableEq, Repr

inductive Error where
  | malformed (text : String)
  | frameTooLarge
  | noLane
deriving DecidableEq, Repr

def eventFrameTag : UInt8 := 0xf1

/-- The `n` bytes of `value`, the lowest first. -/
def toLeBytes (n value : Nat) : List UInt8 :=
  (List.range n).map fun i => UInt8.ofNat (value / 256 ^ i)

def fromLeBytes (bytes : List UInt8) : Nat :=
  bytes.foldr (fun byte rest => byte.toNat + 256 * rest) 0

def encodeEvent (topic payload : List UInt8) : Except Error (List UInt8) :=
  if 2 ^ 16 ≤ topic.length then .error (.malformed "an event topic is longer than 64 KiB")
  else if 2 ^ 32 ≤ payload.length then .error .frameTooLarge
  else .ok (eventFrameTag :: toLeBytes 2 topic.length ++ topic ++ toLeBytes 4 payload.length ++
    payload)

def decodeEvent (frame : List UInt8) : Except Error (List UInt8 × List UInt8) :=
  match frame with
  | [] => .error (.malformed "the frame is not an event frame")
  | tag :: rest =>
    if tag ≠ eventFrameTag then .error (.malformed "the frame is not an event frame")
    else if rest.length < 2 then .error (.malformed "the event frame is malformed")
    else
      let topicLen := fromLeBytes (rest.take 2)
      let rest := rest.drop 2
      if rest.length < topicLen then .error (.malformed "the event frame is malformed")
      else if !(ByteArray.mk (rest.take topicLen).toArray).validateUTF8 then
        .error (.malformed "an event topic is not UTF-8")
      else
        let topic := rest.take topicLen
        let rest := rest.drop topicLen
        if rest.length < 4 then .error (.malformed "the event frame is malformed")
        else if (rest.drop 4).length ≠ fromLeBytes (rest.take 4) then
          .error (.malformed "the event frame is malformed")
        else .ok (topic, rest.drop 4)

def interestWords : Nat := 7
def interestBits : Nat := interestWords * 64

/-- `events` and a zero byte. -/
def interestTag : List UInt8 := [101, 118, 101, 110, 116, 115, 0]

/-- One interest set: a word for every 64 bits. -/
abbrev Interest := Fin interestWords → Nat

/-- Two bit positions for a key under its feature's tag. -/
def positions (tag key : List UInt8) : List (Fin interestBits) :=
  let hash := (tag ++ key).foldl
    (fun hash byte => (hash ^^^ byte.toNat) * 0x00000100000001b3 % 2 ^ 64) 0xcbf29ce484222325
  [⟨hash % interestBits, Nat.mod_lt _ (by decide)⟩,
    ⟨(hash >>> 32) % interestBits, Nat.mod_lt _ (by decide)⟩]

def hasBit (words : Interest) (bit : Fin interestBits) : Bool :=
  words ⟨bit.val / 64, Nat.div_lt_of_lt_mul (Nat.mul_comm 64 _ ▸ bit.2)⟩ &&&
    (1 <<< (bit.val % 64)) ≠ 0

/-- One bridge: the node that publishes through it, which roles are the other fleet, how an event is
matched against interest (`none` for the ring topic) and the largest frame of the ring. -/
structure Bridge where
  node : Nat
  far : String → Bool
  extract : Option (FleetEvent → Option (List UInt8))
  payloadMax : Nat

/-- The routing key of an event; `none` means it is never forwarded. -/
def Bridge.keyOf (b : Bridge) (event : FleetEvent) : Option (List UInt8) :=
  match b.extract with
  | none => some event.topic
  | some extract => extract event

/-- What a scan reads of one lane, at the moment it reads it. -/
structure LaneSeen where
  consumers : Nat
  role : Option String
  interest : Interest
  accepts : Bool
  depth : Nat

/-- What a scan reads of one watcher slot. -/
structure WatcherSeen where
  role : Option String
  interest : Interest

def Bridge.isFarLane (b : Bridge) (lane : LaneSeen) : Bool :=
  lane.consumers ≠ 0 && lane.role.any b.far

def Bridge.farEntries (b : Bridge) (lanes : List LaneSeen) (watchers : List WatcherSeen) :
    List Interest :=
  (lanes.filter b.isFarLane).map LaneSeen.interest ++
    (watchers.filter fun w => w.role.any b.far).map WatcherSeen.interest

/-- Whether some process on the far side said it can decode `key`. -/
def Bridge.farWants (b : Bridge) (lanes : List LaneSeen) (watchers : List WatcherSeen)
    (key : List UInt8) : Bool :=
  let union := (b.farEntries lanes watchers).foldl (fun union bits word => union word ||| bits word)
    fun _ => 0
  (positions interestTag key).all (hasBit union)

def Bridge.target (b : Bridge) (lanes : List LaneSeen) : Option Nat :=
  ((lanes.zipIdx.filter fun l => b.isFarLane l.1 && l.1.accepts).argmin fun l => l.1.depth).map
    Prod.snd

/-- Write one event to the idlest far lane that will take it; `write` is what the lane answers. -/
def Bridge.send (b : Bridge) (lanes : List LaneSeen) (write : Except Error Unit)
    (event : FleetEvent) : Except Error Nat :=
  match b.target lanes with
  | none => .error .noLane
  | some lane =>
    match encodeEvent event.topic event.payload, write with
    | .ok _, .ok () => .ok lane
    | .error e, _ => .error e
    | _, .error e => .error e

/-- What became of an event `pump` polled. -/
inductive Outcome where
  | foreign
  | cameBack
  | noKey
  | unwanted (key : List UInt8) (lanes : List LaneSeen) (watchers : List WatcherSeen)
  | sendFailed
  | written (lane : Nat)

/-- Where `pump` stands with the event in hand. -/
inductive Stage where
  | wants (key : List UInt8)
  | sends

/-- The bridge, with the events of its node and what became of them. -/
structure State where
  /-- Events this process published itself. -/
  own : List FleetEvent
  /-- Events `accept` published. -/
  accepted : List FleetEvent
  /-- Counters an `accept` call has published and is about to remember. -/
  accepting : List Nat
  /-- Counters `accept` has remembered. -/
  remembered : List Nat
  republished : Finset Nat
  /-- Every event a poll returned. -/
  polled : List FleetEvent
  /-- Events `pump` has polled and not looked at. -/
  untested : List FleetEvent
  inHand : Option (FleetEvent × Stage)
  handled : List (FleetEvent × Outcome)
  dropped : Nat
  lagged : Nat

def State.init : State := ⟨[], [], [], [], ∅, [], [], none, [], 0, 0⟩

/-- What the ring does with a frame: it refuses it, or writes it under a counter, and then the
notification of its readers may fail. -/
inductive RingWrite where
  | refused
  | written (counter : Nat) (notified : Bool)

inductive Action where
  /-- This process publishes an event of its own. -/
  | publish (topic payload : List UInt8) (timestampMs : Nat) (write : RingWrite)
  /-- `accept` publishes the event of a frame. -/
  | accept (frame : List UInt8) (timestampMs : Nat) (write : RingWrite)
  /-- `accept` remembers the counter it published under. -/
  | remember (counter : Nat)
  /-- `pump` polls the ring. -/
  | poll (events : List FleetEvent) (lagged : Nat)
  /-- `pump` takes the next event: the origin test, `came_back` and the routing key. -/
  | test
  /-- `pump` asks whether the far side wants the event. -/
  | wants (lanes : List LaneSeen) (watchers : List WatcherSeen)
  /-- `pump` sends the event. -/
  | send (lanes : List LaneSeen) (write : Except Error Unit)

def headerLen : Nat := 12

def Bridge.frameFits (b : Bridge) (topic payload : List UInt8) : Bool :=
  topic.length < 2 ^ 16 && payload.length < 2 ^ 16 &&
    headerLen + topic.length + payload.length ≤ b.payloadMax

def State.counters (s : State) : List Nat := (s.own ++ s.accepted).map fun e => e.id.counter

/-- Events `pump` has taken from its poll, in order. -/
def State.tested (s : State) : List FleetEvent :=
  s.handled.map Prod.fst ++ (s.inHand.map Prod.fst).toList

def Bridge.ownCounters (b : Bridge) (events : List FleetEvent) : List Nat :=
  (events.filter fun e => e.id.node = b.node).map fun e => e.id.counter

/-- What the ring may answer to a poll: events of this node that were published, in increasing order
of their counters and none polled before; events of other nodes are any. -/
def Bridge.polls (b : Bridge) (s : State) (events : List FleetEvent) : Prop :=
  (∀ e ∈ events, e.id.node = b.node → e ∈ s.own ++ s.accepted) ∧
    (b.ownCounters (s.tested ++ events)).Pairwise (· < ·)

instance (b : Bridge) (s : State) (events : List FleetEvent) : Decidable (b.polls s events) :=
  inferInstanceAs (Decidable (_ ∧ _))

/-- `came_back`: whether this event is one the bridge republished, forgetting everything up to
it. -/
def State.cameBack (s : State) (counter : Nat) : Bool × State :=
  (counter ∈ s.republished, { s with republished := s.republished.filter (counter + 1 ≤ ·) })

def State.done (s : State) (event : FleetEvent) (outcome : Outcome) : State :=
  { s with inHand := none, handled := s.handled ++ [(event, outcome)] }

/-- One action. An action that cannot be taken changes nothing. -/
def Bridge.exec (b : Bridge) (s : State) : Action → State
  | .publish topic payload timestampMs write =>
    match write with
    | .refused => s
    | .written counter _ =>
      if b.frameFits topic payload ∧ counter ∉ s.counters then
        { s with own := ⟨⟨b.node, counter⟩, topic, payload, timestampMs⟩ :: s.own }
      else s
  | .accept frame timestampMs write =>
    match decodeEvent frame, write with
    | .ok (topic, payload), .written counter notified =>
      if b.frameFits topic payload ∧ counter ∉ s.counters then
        { s with accepted := ⟨⟨b.node, counter⟩, topic, payload, timestampMs⟩ :: s.accepted
                 accepting := if notified then counter :: s.accepting else s.accepting }
      else s
    | _, _ => s
  | .remember counter =>
    if counter ∈ s.accepting then
      { s with accepting := s.accepting.erase counter
               remembered := counter :: s.remembered
               republished := insert counter s.republished }
    else s
  | .poll events lagged =>
    if s.inHand.isNone ∧ s.untested = [] ∧ b.polls s events then
      { s with polled := s.polled ++ events, untested := events, lagged := s.lagged + lagged }
    else s
  | .test =>
    match s.inHand, s.untested with
    | none, event :: rest =>
      let s := { s with untested := rest }
      if event.id.node ≠ b.node then s.done event .foreign
      else
        let r := s.cameBack event.id.counter
        if r.1 then r.2.done event .cameBack
        else
          match b.keyOf event with
          | none => r.2.done event .noKey
          | some key => { r.2 with inHand := some (event, .wants key) }
    | _, _ => s
  | .wants lanes watchers =>
    match s.inHand with
    | some (event, .wants key) =>
      if b.farWants lanes watchers key then { s with inHand := some (event, .sends) }
      else s.done event (.unwanted key lanes watchers)
    | _ => s
  | .send lanes write =>
    match s.inHand with
    | some (event, .sends) =>
      match b.send lanes write event with
      | .ok lane => s.done event (.written lane)
      | .error _ => { s.done event .sendFailed with dropped := s.dropped + 1 }
    | _ => s

def Bridge.run (b : Bridge) (actions : List Action) : State := actions.foldl b.exec .init

end OrbitLink
