import EliteEvents.Lib.TimeSpan
import EliteEvents.Spec.Heartbeat

/-! The Redis watchdog of a process: a loop that PINGs Redis (`RedisConnectivityMonitor`), the time of the last
PING that was answered (`RedisConnectivityState`), and the check behind `/health/live` that reads it
(`RedisLivenessHealthCheck`). Times are UTC ticks. -/

namespace EliteEvents

/-- `RedisLivenessOptions`. A threshold that is not positive turns the watchdog off. -/
structure RedisLivenessOptions where
  probeInterval : ℕ
  probeTimeout : ℕ
  unreachableRestartThreshold : ℤ

def RedisLivenessOptions.default : RedisLivenessOptions where
  probeInterval := 30 * TimeSpan.ticksPerSecond
  probeTimeout := 5 * TimeSpan.ticksPerSecond
  unreachableRestartThreshold := 15 * 60 * TimeSpan.ticksPerSecond

structure RedisConnectivityState where
  lastReachable : ℕ

namespace RedisConnectivityState

/-- A process that has never reached Redis counts from its start. -/
def start (startedUtc : ℕ) : RedisConnectivityState := ⟨startedUtc⟩

def markReachable (now : ℕ) (s : RedisConnectivityState) : RedisConnectivityState :=
  { s with lastReachable := now }

def unreachableFor (now : ℕ) (s : RedisConnectivityState) : ℤ := now - s.lastReachable

def isStuck (now : ℕ) (threshold : ℤ) (s : RedisConnectivityState) : Bool :=
  decide (threshold > 0) && decide (s.unreachableFor now > threshold)

end RedisConnectivityState

/-- `RedisLivenessHealthCheck.CheckHealthAsync`. -/
def checkLiveness (opts : RedisLivenessOptions) (now : ℕ) (s : RedisConnectivityState) : HealthStatus :=
  if s.isStuck now opts.unreachableRestartThreshold then .unhealthy else .healthy

/-- Where `RedisConnectivityMonitor.ExecuteAsync` stands: in `WaitAsync` for a PING that was sent at `since`, in
`Task.Delay` until `due`, or returned. -/
inductive MonitorPhase
  | probing (since : ℕ)
  | delaying (due : ℕ)
  | stopped
  deriving DecidableEq

inductive ProbeEvent
  | answered
  /-- the client throws -/
  | refused
  /-- the token of `ProbeTimeout` fires first -/
  | timedOut
  /-- the delay is over -/
  | woken
  /-- the host stops -/
  | stopping
  deriving DecidableEq

/-- The process, at the time of its last event. -/
structure Watchdog where
  now : ℕ
  state : RedisConnectivityState
  monitor : MonitorPhase

namespace Watchdog

def start (startedUtc : ℕ) : Watchdog := ⟨startedUtc, .start startedUtc, .probing startedUtc⟩

/-- One event of the loop, at time `e.1`. -/
def step (opts : RedisLivenessOptions) (w : Watchdog) (e : ℕ × ProbeEvent) : Option Watchdog :=
  if e.1 < w.now then none
  else
    match e.2, w.monitor with
    | .answered, .probing _ =>
      some ⟨e.1, w.state.markReachable e.1, .delaying (e.1 + opts.probeInterval)⟩
    -- a failed probe is logged, and the loop goes on
    | .refused, .probing _ => some ⟨e.1, w.state, .delaying (e.1 + opts.probeInterval)⟩
    | .timedOut, .probing since =>
      if since + opts.probeTimeout ≤ e.1 then some ⟨e.1, w.state, .delaying (e.1 + opts.probeInterval)⟩
      else none
    | .woken, .delaying due => if due ≤ e.1 then some ⟨e.1, w.state, .probing e.1⟩ else none
    | .stopping, _ => some ⟨e.1, w.state, .stopped⟩
    | _, _ => none

def run (opts : RedisLivenessOptions) : List (ℕ × ProbeEvent) → Watchdog → Option Watchdog
  | [], w => some w
  | e :: es, w => (w.step opts e).bind (run opts es)

end Watchdog

end EliteEvents
