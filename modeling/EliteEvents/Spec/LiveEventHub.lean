import EliteEvents.Lib.BoundedQueue
import EliteEvents.Spec.Receiver

/-! The live ticker of one web pod: the Redis subscription (`RedisEventSubscriber`) and the
fan-out to the connected browsers (`LiveEventHub`). Messages are handled one at a time; the
steps of handling one interleave with clients coming, going and reading. -/

namespace EliteEvents

open Text BoundedQueue

/-- One ticker event, in both of the forms the endpoint sends. -/
structure TickerFrame where
  json : Str
  html : Str
  deriving DecidableEq

abbrev Guid := BitVec 128

/-- Code outside the repository: the JSON library and the Razor engine behind
`TickerFragmentRenderer`. -/
structure TickerLibrary where
  /-- `JsonConvert.DeserializeObject` at `LiveEvent` -/
  deserializeObject : Str → Except Exn (Option LiveEvent)
  /-- `JsonConvert.SerializeObject` -/
  serializeObject : LiveEvent → Str
  /-- `TickerFragmentRenderer.RenderAsync` -/
  renderAsync : LiveEvent → Except Exn Str

namespace LiveEventHub

def recentEventCapacity : ℕ := 40
def clientQueueCapacity : ℕ := 100

instance : NeZero clientQueueCapacity := ⟨by decide⟩

/-- The frame a message becomes. A malformed message, a JSON `null` and a row that fails to
render are logged and skipped. -/
def frame (X : TickerLibrary) (message : Str) : Option TickerFrame :=
  match X.deserializeObject message with
  | .error _ => none
  | .ok none => none
  | .ok (some liveEvent) =>
    match X.renderAsync liveEvent with
    | .error _ => none
    | .ok html => some ⟨X.serializeObject liveEvent, html⟩

/-- How far `OnEventAsync` has come with a frame. -/
inductive Handling
  | idle
  /-- in the ring, and `_clients.Values` not read yet -/
  | enqueued (frame : TickerFrame)
  /-- in the loop over the clients that `_clients.Values` returned -/
  | writing (frame : TickerFrame) (rest : List Guid)
  deriving DecidableEq

def Handling.done : Handling → Bool
  | .idle | .writing _ [] => true
  | .enqueued _ | .writing _ (_ :: _) => false

/-- The hub with the channels it has handed out and what each client has read from its own.
A channel outlives its entry in `_clients`: the subscription still holds the reader. -/
structure State where
  clients : List Guid
  recent : List TickerFrame
  handling : Handling
  channels : Guid → Option (Queue TickerFrame clientQueueCapacity)
  received : Guid → List TickerFrame

def State.init : State := ⟨[], [], .idle, fun _ => none, fun _ => []⟩

inductive Action
  /-- the next message of the subscription, up to the end of the lock on the ring -/
  | message (m : Str)
  /-- `_clients.Values`, a snapshot in an order of the dictionary's own -/
  | values (order : List Guid)
  /-- the loop's next `TryWrite` -/
  | tryWrite (id : Guid)
  | subscribeClient (id : Guid)
  | dispose (id : Guid)
  | tryRead (id : Guid)
  deriving DecidableEq

def State.step (X : TickerLibrary) (s : State) : Action → Option State
  | .message m =>
    if s.handling.done then
      match frame X m with
      | none => some { s with handling := .idle }
      | some f =>
        some { s with
          recent := trim recentEventCapacity (s.recent ++ [f])
          handling := .enqueued f }
    else none
  | .values order =>
    match s.handling with
    | .enqueued f => if order.Perm s.clients then some { s with handling := .writing f order } else none
    | _ => none
  | .tryWrite id =>
    match s.handling with
    | .writing f (id' :: rest) =>
      if id = id' then
        some { s with
          handling := .writing f rest
          channels := Function.update s.channels id ((s.channels id).map (·.tryWrite f)) }
      else none
    | _ => none
  | .subscribeClient id =>
    -- `Guid.NewGuid()` gives an id that was not used before
    match s.channels id with
    | some _ => none
    | none =>
      some { s with
        clients := id :: s.clients
        channels := Function.update s.channels id (some .empty) }
  | .dispose id => some { s with clients := s.clients.erase id }
  | .tryRead id =>
    match s.channels id with
    | none => none
    | some ch =>
      match ch.tryRead with
      | none => some s
      | some (f, ch') =>
        some { s with
          channels := Function.update s.channels id (some ch')
          received := Function.update s.received id (s.received id ++ [f]) }

/-- `RecentFrames`: newest first. -/
def State.recentFrames (s : State) : List TickerFrame := s.recent.reverse

def run (X : TickerLibrary) : State → List Action → Option State
  | s, [] => some s
  | s, a :: as => (s.step X a).bind fun s' => run X s' as

end LiveEventHub

end EliteEvents
