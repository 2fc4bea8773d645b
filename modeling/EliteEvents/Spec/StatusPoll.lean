import EliteEvents.Spec.Controller

/-! One status poll from outside: the pods that match the feed's selector, what each of them
answers when it is probed and the clock at that moment, and the status the poll writes. -/

namespace EliteEvents

/-- A listed pod, what its probe gives, and the clock when `time.Since` reads it. -/
structure Poll where
  pod : Pod
  outcome : Except ApiError StreamStatus
  clock : ℤ

/-- Pods that the loop of `reconcileStatus` does not skip. -/
def Poll.probed (p : Poll) : Bool := isPodReady p.pod && decide (p.pod.podIP ≠ "")

/-- The probes still to come, the clock of the last one, and the status written. -/
structure PollState where
  due : List Poll
  clock : ℤ
  written : Option FeedListener

/-- How the calls of a poll are answered; the answers it does not depend on are arbitrary. -/
def respond (polls : List Poll) (other : (c : Call) → Answer c) : (c : Call) → PollState → Answer c × PollState
  | .listPods _, s => (.ok (polls.map (·.pod)), s)
  | .probe ip, s =>
    match s.due with
    | [] => (other (.probe ip), s)
    | p :: due => (p.outcome, { s with due := due, clock := p.clock })
  | .now, s => (.ok s.clock, s)
  | .updateStatus fl, s => (other (.updateStatus fl), { s with written := some fl })
  | c, s => (other c, s)

/-- A step of the poll, run against these answers. -/
def Reconciler.polled {α : Type} (polls : List Poll) (other : (c : Call) → Answer c) (p : Reconciler α)
    (s : PollState) : Except Err α × PollState :=
  Prog.interp (respond polls other) (α := Except Err α) p s

/-- The status that `reconcileStatus` writes. -/
def polledStatus (fl : FeedListener) (polls : List Poll) (other : (c : Call) → Answer c) :
    Option FeedListener :=
  ((reconcileStatus fl).polled polls other ⟨polls.filter Poll.probed, 0, none⟩).2.written

/-- `meta.IsStatusConditionTrue`. -/
def isStatusConditionTrue (cs : List Condition) (t : ConditionType) : Bool :=
  match cs.find? fun c => decide (c.type = t) with
  | some c => c.status
  | none => false

end EliteEvents
