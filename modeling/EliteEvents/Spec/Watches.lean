import EliteEvents.Spec.Operator

/-! Which events wake the controller (`feedListenerTriggers`), and the update events that a run of
the operator gives rise to. -/

namespace EliteEvents

/-- `event.UpdateEvent`: a FeedListener as the cache had it, and as it is now. -/
structure UpdateEvent where
  objectOld : Option FeedListener
  objectNew : Option FeedListener

def feedListenerTriggers : UpdateEvent → Bool
  | ⟨some objectOld, some objectNew⟩ =>
    if objectNew.deletionTimestamp then true else objectOld.generation != objectNew.generation
  | _ => true

/-- There is an update event if the feed is there before and after, in another version. -/
def updateEvent : Option FeedListener → Option FeedListener → Option UpdateEvent
  | some old, some new => if old.resourceVersion = new.resourceVersion then none else some ⟨old, new⟩
  | _, _ => none

/-- One step of a run. -/
structure Transition where
  before : World
  action : Action
  after : World

namespace Transition

variable (feed : String) (t : Transition)

def event : Option UpdateEvent :=
  updateEvent (t.before.cluster.feeds.lookup feed) (t.after.cluster.feeds.lookup feed)

/-- The call of the worker that the step is, if it is one. -/
def call : Option Call :=
  match t.action, t.before.worker with
  | .call _, .call c _ => some c
  | _, _ => none

/-- The worker's call wakes the controller, over the feed with that UID. -/
def wakes (uid : ℕ) : Bool :=
  t.call.isSome && (t.event feed).any fun e =>
    feedListenerTriggers e && e.objectNew.any fun fl => fl.uid == uid

/-- The call writes the status. -/
def isStatus : Bool :=
  match t.call with
  | some (.updateStatus _) => true
  | _ => false

end Transition

/-- A run with all its steps, the last one first. -/
inductive World.Trace (sha256 : List UInt8 → List UInt8) (feed : String) : List Transition → World → Prop
  | nil : Trace sha256 feed [] initial
  | cons {ts : List Transition} {w w' : World} (a : Action) (h : Trace sha256 feed ts w)
      (hs : w.step sha256 feed a = some w') : Trace sha256 feed (⟨w, a, w'⟩ :: ts) w'

end EliteEvents
