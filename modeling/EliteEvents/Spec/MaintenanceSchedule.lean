import EliteEvents.Lib.TimeSpan
import EliteEvents.Spec.IndexMaintenance

/-! `SearchIndexMaintenanceService.ExecuteAsync` over time: the grace period, the short retries until one pass has
got through, and then the timer, or the hand-off to whatever else owns the schedule. Times are UTC ticks. -/

namespace EliteEvents

open Redis

/-- `IndexMaintenanceOptions`, with the interval in ticks. -/
structure IndexMaintenanceOptions where
  periodic : Bool
  interval : ℤ

/-- One hour. -/
def IndexMaintenanceOptions.default : IndexMaintenanceOptions := ⟨true, 60 * 60 * TimeSpan.ticksPerSecond⟩

/-- A `PeriodicTimer`: when it was made, how often it has fired, and whether a tick is there to be taken. What
fires before the last tick is taken adds nothing to it. -/
structure PeriodicTimer where
  created : ℕ
  fired : ℕ
  signaled : Bool

/-- The periods its constructor takes: whole milliseconds within the range of a timer, or
`Timeout.InfiniteTimeSpan`, on which it never fires. -/
def PeriodicTimer.accepts (period : ℤ) : Bool :=
  let milliseconds := period.tdiv 10000
  decide (1 ≤ milliseconds ∧ milliseconds ≤ 4294967294) || decide (period = -10000)

/-- A pass over both indexes, once it has ended. -/
structure MaintenancePass where
  started : ℕ
  ended : ℕ
  succeeded : Bool
  deriving DecidableEq

inductive MaintenancePhase
  /-- in `Task.Delay`, before the first pass or after a failed one -/
  | delaying (due : ℕ)
  | rebuilding (since : ℕ)
  /-- in `WaitForNextTickAsync` -/
  | waiting
  | returned
  /-- the constructor of the timer threw, which stops the host -/
  | faulted
  deriving DecidableEq

inductive MaintenanceEvent
  /-- a delay is over -/
  | delayed
  /-- a pass ends, with what its rebuilds met at server time `now` -/
  | rebuilt (now : Time) (systems carriers : Attempt)
  /-- the timer fires -/
  | fired
  /-- `WaitForNextTickAsync` returns true -/
  | ticked
  /-- the stopping token fires -/
  | stopping
  /-- what waits for the token learns of it -/
  | cancelled

/-- The service at the time of its last event, with the passes that have ended, newest first. -/
structure MaintenanceRun where
  now : ℕ
  service : MaintenanceService
  isCancellationRequested : Bool
  timer : Option PeriodicTimer
  phase : MaintenancePhase
  passes : List MaintenancePass

namespace MaintenanceRun

/-- 5 seconds. -/
def startupDelay : ℕ := 5 * TimeSpan.ticksPerSecond
/-- 15 seconds. -/
def retryUntilFirstSuccess : ℕ := 15 * TimeSpan.ticksPerSecond

/-- Only shard 0 does any of it. -/
def start (shardIndex : ℤ) (now : ℕ) (σ : Store) : MaintenanceRun where
  now := now
  service := ⟨σ, false⟩
  isCancellationRequested := false
  timer := none
  phase := if shardIndex ≠ 0 then .returned else .delaying (now + startupDelay)
  passes := []

/-- Where the loops go once `RebuildAsync` has returned at `now`. -/
def afterPass (opts : IndexMaintenanceOptions) (now : ℕ) (w : MaintenanceRun) : MaintenanceRun :=
  match w.timer with
  | some _ => { w with phase := .waiting }
  | none =>
    if !w.service.hasSucceeded then { w with phase := .delaying (now + retryUntilFirstSuccess) }
    else if !opts.periodic then { w with phase := .returned }
    else if PeriodicTimer.accepts opts.interval then
      { w with timer := some ⟨now, 0, false⟩, phase := .waiting }
    else { w with phase := .faulted }

/-- One event, at time `e.1`. -/
def step (opts : IndexMaintenanceOptions) (w : MaintenanceRun) (e : ℕ × MaintenanceEvent) : Option MaintenanceRun :=
  let now := e.1
  if now < w.now then none
  else
    match e.2, w.phase with
    | .delayed, .delaying due => if due ≤ now then some { w with now := now, phase := .rebuilding now } else none
    | .rebuilt t systems carriers, .rebuilding since =>
      match w.service.rebuildAsync t systems carriers with
      | (s, .ok ()) =>
        let succeeded := (SearchIndexMaintainer.rebuildBoth t systems carriers w.service.store).2.toBool
        some ({ w with now := now, service := s, passes := ⟨since, now, succeeded⟩ :: w.passes }.afterPass opts now)
      | (s, .error _) =>
        -- only the stopping token cancels
        if w.isCancellationRequested then
          some { w with now := now, service := s, phase := .returned, passes := ⟨since, now, false⟩ :: w.passes }
        else none
    | .fired, .rebuilding _ | .fired, .waiting =>
      match w.timer with
      | some timer =>
        if 0 < opts.interval ∧ timer.created + (timer.fired + 1) * opts.interval ≤ now then
          some { w with now := now, timer := some { timer with fired := timer.fired + 1, signaled := true } }
        else none
      | none => none
    | .ticked, .waiting =>
      match w.timer with
      | some timer =>
        if timer.signaled then
          some { w with now := now, timer := some { timer with signaled := false }, phase := .rebuilding now }
        else none
      | none => none
    | .stopping, _ => some { w with now := now, isCancellationRequested := true }
    | .cancelled, .delaying _ | .cancelled, .waiting =>
      if w.isCancellationRequested then some { w with now := now, phase := .returned } else none
    | _, _ => none

end MaintenanceRun

end EliteEvents
