import EliteEvents.Spec.StreamEndpoint

/-! One connection of `/api/stream`: the loop of the endpoint against the channel of its client, while frames
arrive, the keep-alive fires, the hub completes the channel and the request is cancelled or its connection breaks. -/

namespace EliteEvents

open BoundedQueue LiveEventHub

namespace StreamEndpoint

/-- Where the handler of the request is. -/
inductive Location
  /-- about to write `: connected` -/
  | connecting
  /-- at the condition of the loop -/
  | looping
  /-- in `WaitToReadAsync`, on an empty channel that is not completed -/
  | waiting
  /-- `WaitForFrameAsync` returned false -/
  | pinging
  /-- `WaitForFrameAsync` returned true, and `TryRead` is next -/
  | reading
  /-- returned, or left by an exception -/
  | ended
  deriving DecidableEq

/-- The connection: the client's channel, what has become of its request, and what was written to it. -/
structure Connection where
  location : Location
  queue : Queue TickerFrame clientQueueCapacity
  completed : Bool
  cancelled : Bool
  broken : Bool
  written : List Payload

def Connection.init : Connection := ⟨.connecting, .empty, false, false, false, []⟩

/-- What happens around the loop. -/
inductive Event
  /-- the hub's `TryWrite`, which a completed channel refuses -/
  | arrive (f : TickerFrame)
  /-- the hub's `StopAsync` completes the channel -/
  | complete
  /-- 25 seconds have passed in `WaitForFrameAsync` -/
  | keepAlive
  /-- the request's cancellation token fires -/
  | cancel
  /-- from here on a write to the response throws -/
  | disconnect
  deriving DecidableEq

/-- `WaitToReadAsync` comes back with this result, if the handler is in it. -/
def Connection.resume (c : Connection) (ready : Bool) : Connection :=
  if c.location = .waiting then { c with location := if ready then .reading else .pinging } else c

def Connection.event (c : Connection) : Event → Connection
  | .arrive f => if c.completed then c else { c with queue := c.queue.tryWrite f }.resume true
  | .complete => { c with completed := true }.resume false
  | .keepAlive => c.resume false
  | .cancel => { c with cancelled := true }.resume false
  | .disconnect => { c with broken := true }

/-- `WriteAsync`, then on to the next location. -/
def Connection.write (c : Connection) (p : Payload) (next : Location) : Connection :=
  if c.cancelled || c.broken then { c with location := .ended }
  else { c with written := c.written ++ [p], location := next }

/-- The next step of the handler. In `WaitToReadAsync` it has none of its own. -/
def Connection.step (c : Connection) : Connection :=
  match c.location with
  | .connecting => c.write .connected .looping
  | .looping =>
    if c.cancelled then { c with location := .ended }
    else if c.queue.items ≠ [] then { c with location := .reading }
    else if c.completed then { c with location := .pinging }
    else { c with location := .waiting }
  | .waiting => c
  | .pinging => c.write .ping .looping
  | .reading =>
    match c.queue.tryRead with
    | none => { c with location := .looping }
    | some (f, queue) => { c with queue := queue }.write (.frame f) .reading
  | .ended => c

/-- The connection after so many steps of its handler, given what happens before each of them. -/
def run (events : ℕ → List Event) : ℕ → Connection
  | 0 => .init
  | n + 1 => ((events n).foldl Connection.event (run events n)).step

end StreamEndpoint

end EliteEvents
