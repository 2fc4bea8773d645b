import EliteEvents.Spec.DockingReader
import EliteEvents.Spec.Receiver

/-! The heartbeat that all consumers share: each writes the time of its last message under one key, throttled,
and each judges its own stream by reading that key back (`EddnStreamHealthCheck`). Times are UTC ticks; the
server counts milliseconds. -/

namespace EliteEvents

open Text Redis

/-- Milliseconds of the server's clock. -/
def serverTime (ticks : ℕ) : Time := ticks / 10000

/-- `DateTimeOffset.FromUnixTimeMilliseconds`, as ticks. -/
def fromUnixTimeMilliseconds (ms : ℤ) : Except ReadError ℤ :=
  if -62135596800000 ≤ ms ∧ ms ≤ 253402300799999 then .ok ((ms + 62135596800000) * 10000) else .error .outOfRange

namespace StreamHeartbeat

/-- The SET of `RecordAsync`. -/
def command (unixMilliseconds : ℤ) : Cmd :=
  (Cmd.set RedisKeys.eddnHeartbeat (Decimal.text unixMilliseconds) (some RedisKeys.heartbeatExpiration)).encode

/-- `GetLastMessageUtcAsync`: none if the key is gone or holds no `long`. -/
def getLastMessageUtc (now : Time) (σ : Store) : Except ReadError (Option ℤ) :=
  match (σ.purge now).val (wire RedisKeys.eddnHeartbeat) with
  | none => .ok none
  | some (.str value) =>
    match parseInt 64 value with
    | .error _ => .ok none
    | .ok ms => (fromUnixTimeMilliseconds ms).map some
  | some _ => .error (.redis .wrongType)

end StreamHeartbeat

inductive HealthStatus
  | healthy
  | unhealthy
  deriving DecidableEq

/-- `EddnStreamHealthCheck.CheckHealthAsync`, from what the read gave. -/
def checkHealth (reconnectAfterSilence : ℕ) (utcNow : ℕ) : Except ReadError (Option ℤ) → HealthStatus
  | .error _ => .unhealthy
  | .ok none => .unhealthy
  | .ok (some lastMessage) =>
    if (utcNow : ℤ) - lastMessage > reconnectAfterSilence then .unhealthy else .healthy

/-- Where `ExecuteAsync` stands: before the forced heartbeat, in `Receive`, or with a frame in hand whose
heartbeat is not recorded yet. -/
inductive LoopPhase
  | starting
  | waiting
  | handling
  deriving DecidableEq

structure BeatingConsumer where
  reconnectAfterSilence : ℕ
  state : ReceiverState
  phase : LoopPhase

/-- A heartbeat that reached the server: who wrote it, whether it was the forced one, the message it is for,
and when it was written. -/
structure Beat where
  consumer : ℕ
  force : Bool
  message : ℕ
  written : ℕ

/-- The consumers and the server. `beats` are the heartbeats so far, newest first. -/
structure HeartbeatWorld where
  clock : ℕ
  store : Store
  consumers : List BeatingConsumer
  beats : List Beat

inductive HeartbeatAction
  | tick (d : ℕ)
  /-- a process starts, with its tracker -/
  | start (reconnectAfterSilence : ℕ)
  /-- the forced heartbeat, which may not reach the server -/
  | seed (i : ℕ) (landed : Bool)
  | frame (i : ℕ)
  /-- the frame is dealt with, and its heartbeat is recorded -/
  | beat (i : ℕ) (landed : Bool)
  /-- `Receive` times out -/
  | idle (i : ℕ)
  deriving DecidableEq

namespace HeartbeatWorld

/-- A turn at the clock's time. -/
def turn (w : HeartbeatWorld) (landed : Bool) : Turn where
  received := none
  arrival := w.clock
  batchBuilt := w.clock
  failure := w.clock
  idle := w.clock
  reconnected := w.clock
  writer := fun _ => .ok ()
  heartbeatWrite := if landed then .ok () else .error .redis

/-- A process that starts now. -/
def fresh (w : HeartbeatWorld) (reconnectAfterSilence : ℕ) : BeatingConsumer :=
  ⟨reconnectAfterSilence, ⟨0, 0, w.clock, 0, 0, 0, w.clock⟩, .starting⟩

def setConsumer (w : HeartbeatWorld) (i : ℕ) (c : BeatingConsumer) : HeartbeatWorld :=
  { w with consumers := w.consumers.set i c }

/-- `RecordAsync` of a consumer, after which it waits for the next frame. -/
def record (w : HeartbeatWorld) (i : ℕ) (c : BeatingConsumer) (force landed : Bool) : HeartbeatWorld :=
  match Receiver.recordHeartbeat (w.turn landed) force c.state with
  | (s, [.heartbeat ms]) =>
    { w.setConsumer i { c with state := s, phase := .waiting } with
      store := (StreamHeartbeat.command ms).apply (serverTime w.clock) w.store
      beats := ⟨i, force, c.state.lastMessageTicks, w.clock⟩ :: w.beats }
  | (s, _) => w.setConsumer i { c with state := s, phase := .waiting }

/-- No process yet, and whatever the server holds from before. -/
def initial (start : DateTimeOffset) (σ : Store) : HeartbeatWorld := ⟨start.utcTicks, σ, [], []⟩

def step (w : HeartbeatWorld) : HeartbeatAction → Option HeartbeatWorld
  | .tick d =>
    if w.clock + d ≤ maxTicks then
      some { w with clock := w.clock + d, store := w.store.purge (serverTime (w.clock + d)) }
    else none
  | .start reconnectAfterSilence => some { w with consumers := w.consumers ++ [w.fresh reconnectAfterSilence] }
  | .seed i landed => do
    let c ← w.consumers[i]?
    if c.phase = .starting then return w.record i c true landed else none
  | .frame i => do
    let c ← w.consumers[i]?
    if c.phase = .waiting then
      return w.setConsumer i { c with state := Receiver.recordMessage (w.turn true) c.state, phase := .handling }
    else none
  | .beat i landed => do
    let c ← w.consumers[i]?
    if c.phase = .handling then return w.record i c false landed else none
  | .idle i => do
    let c ← w.consumers[i]?
    if c.phase = .waiting then
      if Receiver.shouldReconnect c.reconnectAfterSilence (w.turn true) c.state then
        return w.setConsumer i { c with state := { c.state with lastReconnect := w.clock } }
      else return w
    else none

/-- The silence `ShouldReconnect` sees. -/
def silence (w : HeartbeatWorld) (c : BeatingConsumer) : ℕ := w.clock - c.state.lastMessageTicks

/-- A consumer's own health check. -/
def health (w : HeartbeatWorld) (c : BeatingConsumer) : HealthStatus :=
  checkHealth c.reconnectAfterSilence w.clock (StreamHeartbeat.getLastMessageUtc (serverTime w.clock) w.store)

end HeartbeatWorld

end EliteEvents
