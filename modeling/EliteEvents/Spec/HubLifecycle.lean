import EliteEvents.Lib.TimeSpan
import EliteEvents.Spec.LiveEventHub

/-! `LiveEventHub` in its host: `StartAsync`, the loop of `ConnectAsync` in the background and `StopAsync`, while events
are fanned out and clients come, read and go. Redis answers a SUBSCRIBE or an UNSUBSCRIBE at any later moment, or fails
it. Times are UTC ticks. -/

namespace EliteEvents

namespace LiveEventHub

/-- 30 seconds. -/
def subscribeRetryDelay : ℕ := 30 * TimeSpan.ticksPerSecond

/-- Where `ConnectAsync` is. -/
inductive Connecting
  | notStarted
  /-- at the condition of the loop -/
  | looping
  /-- in `SubscribeAsync` -/
  | subscribing
  /-- in `Task.Delay` -/
  | delaying (due : ℕ)
  | returned
  deriving DecidableEq

/-- Where `StopAsync` is. -/
inductive Stopping
  | notCalled
  /-- awaiting `_connecting` -/
  | awaiting
  /-- in `DisposeAsync` of the subscription -/
  | unsubscribing
  /-- about to read `_clients.Values` -/
  | listing
  /-- in the loop over the clients that it returned -/
  | completing (rest : List Guid)
  | returned
  /-- left by what `DisposeAsync` threw -/
  | threw
  deriving DecidableEq

/-- The hub at the time of its last event. `made` numbers the subscriptions that Redis has granted it, and `live` has
those that were not given back; `attempts` has the times at which `SubscribeAsync` was called, newest first. -/
structure Hosted where
  now : ℕ
  hub : State
  isCancellationRequested : Bool
  connecting : Connecting
  subscription : Option ℕ
  stopping : Stopping
  completed : Guid → Bool
  made : ℕ
  live : List ℕ
  attempts : List ℕ

inductive HostedEvent
  | startAsync
  /-- `ConnectAsync` looks at the token -/
  | loop
  | subscribed
  | subscribeFailed
  /-- the delay is over -/
  | delayed
  /-- the delay is cut short by the token -/
  | delayCancelled
  | stopAsync
  /-- `_connecting` has ended -/
  | awaited
  | unsubscribed
  /-- with or without having reached Redis -/
  | unsubscribeFailed (reached : Bool)
  /-- `_clients.Values`, in an order of the dictionary's own -/
  | listed (order : List Guid)
  /-- the next `TryComplete`, or the end of the loop -/
  | tryComplete
  /-- an event or a client -/
  | hub (a : Action)
  deriving DecidableEq

/-- `TryWrite` to a channel that is completed. -/
def State.tryWriteCompleted (s : State) (id : Guid) : Option State :=
  match s.handling with
  | .writing f (id' :: rest) => if id = id' then some { s with handling := .writing f rest } else none
  | _ => none

namespace Hosted

def init (now : ℕ) : Hosted := ⟨now, .init, false, .notStarted, none, .notCalled, fun _ => false, 0, [], []⟩

/-- The hub's own part. What was queued when a subscription is given back is still handled. -/
def hubStep (X : TickerLibrary) (w : Hosted) : Action → Option State
  | .message m => if w.made = 0 then none else w.hub.step X (.message m)
  | .tryWrite id => if w.completed id then w.hub.tryWriteCompleted id else w.hub.step X (.tryWrite id)
  | a => w.hub.step X a

/-- One event, at time `e.1`. The host starts the service at most once, and stops it at most once and then for good. -/
def step (X : TickerLibrary) (w : Hosted) (e : ℕ × HostedEvent) : Option Hosted :=
  let now := e.1
  if now < w.now then none
  else
    match e.2, w.connecting, w.stopping with
    | .startAsync, .notStarted, .notCalled => some { w with now := now, connecting := .looping }
    | .loop, .looping, _ =>
      if w.isCancellationRequested then some { w with now := now, connecting := .returned }
      else some { w with now := now, connecting := .subscribing, attempts := now :: w.attempts }
    | .subscribed, .subscribing, _ =>
      some { w with
        now := now
        connecting := .returned
        subscription := some w.made
        made := w.made + 1
        live := w.made :: w.live }
    | .subscribeFailed, .subscribing, _ =>
      some { w with now := now, connecting := .delaying (now + subscribeRetryDelay) }
    | .delayed, .delaying due, _ => if due ≤ now then some { w with now := now, connecting := .looping } else none
    | .delayCancelled, .delaying _, _ =>
      if w.isCancellationRequested then some { w with now := now, connecting := .returned } else none
    | .stopAsync, connecting, .notCalled =>
      -- `_stopping` is there from `StartAsync` on
      some { w with now := now, isCancellationRequested := connecting ≠ .notStarted, stopping := .awaiting }
    | .awaited, .notStarted, .awaiting | .awaited, .returned, .awaiting =>
      some { w with now := now, stopping := if w.subscription.isSome then .unsubscribing else .listing }
    | .unsubscribed, _, .unsubscribing =>
      some { w with
        now := now
        subscription := none
        live := w.live.filter fun id => w.subscription ≠ some id
        stopping := .listing }
    | .unsubscribeFailed reached, _, .unsubscribing =>
      some { w with
        now := now
        live := if reached then w.live.filter fun id => w.subscription ≠ some id else w.live
        stopping := .threw }
    | .listed order, _, .listing =>
      if order.Perm w.hub.clients then some { w with now := now, stopping := .completing order } else none
    | .tryComplete, _, .completing [] => some { w with now := now, stopping := .returned }
    | .tryComplete, _, .completing (id :: rest) =>
      some { w with now := now, completed := Function.update w.completed id true, stopping := .completing rest }
    | .hub a, _, _ => (w.hubStep X a).map fun hub => { w with now := now, hub := hub }
    | _, _, _ => none

def run (X : TickerLibrary) : Hosted → List (ℕ × HostedEvent) → Option Hosted
  | w, [] => some w
  | w, e :: es => (w.step X e).bind fun w' => run X w' es

end Hosted

end LiveEventHub

end EliteEvents
