import EliteEvents.Spec.DockingWriter
import EliteEvents.Spec.ShardFilter

/-! The receive loop of one consumer (`EddnStreamReceiver`), with what it runs on: the
socket (`EddnStream`), the message factory, the journal handler, the health tracker and the
throttled heartbeat. A loop turn is a function of what the socket delivered, the clock
readings of that turn and whether Redis answered. -/

namespace EliteEvents

open Text Redis

/-- Exceptions, by where they come from. -/
inductive Exn
  | zlib
  | json
  | conversion
  | nullReference
  | redis
  deriving DecidableEq

inductive MessageEvent
  | docked
  | fsdJump
  | scan
  | location
  | saaSignalsFound
  | carrierJump
  | codexEntry
  deriving DecidableEq

/-- The fields of a journal message the handlers read. A property value is null or an object
with the text its `ToString()` gives. -/
structure JournalMessage where
  gatewayTimestamp : DateTimeOffset
  event : MessageEvent
  starSystem : Option Str
  additionalProperties : List (Str × Option Str)
  deriving DecidableEq

inductive EddnMessage
  | journal (m : JournalMessage)
  | approachSettlement

/-- Code outside the repository: zlib, UTF-8 decoding, the JSON library with the message
classes generated for it, the cron library, and `ToUpperInvariant`. -/
structure External (JToken : Type) where
  casing : Casing
  /-- `ZlibStream.UncompressBuffer` -/
  uncompressBuffer : List UInt8 → Except Exn (Option (List UInt8))
  /-- `UTF8Encoding.GetString`, which replaces malformed input instead of throwing -/
  getString : List UInt8 → Str
  /-- `JToken.Parse` -/
  parse : Str → Except Exn JToken
  /-- `token["$schemaRef"]?.Value<string>()` -/
  schemaRef : JToken → Except Exn (Option Str)
  /-- `token.ToObject` at `JournalMessage` -/
  toJournal : JToken → Except Exn (Option JournalMessage)
  /-- `token.ToObject` at `ApproachSettlementMessage` -/
  toApproachSettlement : JToken → Except Exn (Option Unit)
  /-- `WeeklyExpirationCalculator.GetNextExpirationUtc`, from clock ticks to server time -/
  nextExpirationUtc : ℕ → Time

variable {J : Type}

namespace MessageFactory

def journalSchema : Str := lit "https://eddn.edcd.io/schemas/journal/1"
def approachSettlementSchema : Str := lit "https://eddn.edcd.io/schemas/approachsettlement/1"

def create (X : External J) (token : J) : Except Exn (Option EddnMessage) := do
  match ← X.schemaRef token with
  | none => pure none
  | some schema =>
    if schema = journalSchema then
      return (← X.toJournal token).map .journal
    else if schema = approachSettlementSchema then
      return (← X.toApproachSettlement token).map fun _ => .approachSettlement
    else
      -- also the empty string, which no schema is registered for
      pure none

end MessageFactory

/-- A frame of the live ticker. -/
structure LiveEvent where
  type : Str
  system : Option Str
  station : Option Str
  stationType : Option Str
  ts : ℤ
  deriving DecidableEq

def LiveEvent.docked (system station stationType : Option Str) (t : DateTimeOffset) : LiveEvent :=
  ⟨lit "docked", system, station, stationType, t.toUnixTimeSeconds⟩

def LiveEvent.fsdJump (system : Option Str) (t : DateTimeOffset) : LiveEvent :=
  ⟨lit "fsdjump", system, none, none, t.toUnixTimeSeconds⟩

/-- What the consumer does that others can see. -/
inductive Effect
  | handle (m : JournalMessage)
  | write (call : WriterCall) (nextExpiration : Time)
  | publish (e : LiveEvent)
  | heartbeat (unixMilliseconds : ℤ)
  | logError (failures : ℕ)
  | logRecovered (failures : ℕ)
  | reconnect
  deriving DecidableEq

/-- The Redis commands of an effect, as they leave the client. -/
def Effect.commands (I : Casing) : Effect → List Cmd
  | .write call nextExpiration => DockingWriter.batch I nextExpiration call
  | .heartbeat ms =>
    [(Cmd.set RedisKeys.eddnHeartbeat (Decimal.text ms) (some RedisKeys.heartbeatExpiration)).encode]
  | .handle _ | .publish _ | .logError _ | .logRecovered _ | .reconnect => []

/-- One turn of the loop, from outside: what `TryReceiveFrameBytes` gave (none on a timeout),
the clock wherever it is read, and whether the writer and the heartbeat reach Redis. -/
structure Turn where
  received : Option (List UInt8)
  arrival : ℕ
  batchBuilt : ℕ
  failure : ℕ
  idle : ℕ
  reconnected : ℕ
  writer : WriterCall → Except Exn Unit
  heartbeatWrite : Except Exn Unit

namespace JournalMessageHandler

def handles : List MessageEvent := [.docked, .fsdJump]

/-- `AdditionalProperties.TryGetValue`, with the default of a missing property. -/
def property (m : JournalMessage) (name : String) : Option Str :=
  match m.additionalProperties.lookup (lit name) with
  | some value => value
  | none => some (lit "Unknown")

/-- The writer call and the ticker frame of a docking. -/
def handleDocked (m : JournalMessage) : Except Exn (WriterCall × LiveEvent) := do
  let ts := m.gatewayTimestamp
  let stationName := property m "StationName"
  -- `stationType.ToString()` on a null property
  let some stationType := property m "StationType" | throw .nullReference
  let live := LiveEvent.docked m.starSystem stationName (some stationType) ts
  if stationType = lit "FleetCarrier" then
    return (.fleetCarrierDocking (stationName.getD (lit "Unknown")) ts, live)
  else
    let some system := m.starSystem | throw .nullReference
    return (.stationDocking system (stationName.getD (lit "Unknown")) stationType ts, live)

def handleFSDJump (m : JournalMessage) : Except Exn (WriterCall × LiveEvent) := do
  let some system := m.starSystem | throw .nullReference
  return (.systemVisit system, LiveEvent.fsdJump m.starSystem m.gatewayTimestamp)

def request (m : JournalMessage) : Except Exn (Option (WriterCall × LiveEvent)) :=
  match m.event with
  | .docked => (handleDocked m).map some
  | .fsdJump => (handleFSDJump m).map some
  | .scan | .location | .saaSignalsFound | .carrierJump | .codexEntry => .ok none

/-- `Handle`: what was done before it returned or threw. A ticker frame that cannot be
published is swallowed by the publisher. -/
def handle (X : External J) (t : Turn) (m : JournalMessage) : List Effect × Except Exn Unit :=
  match request m with
  | .error e => ([.handle m], .error e)
  | .ok none => ([.handle m], .ok ())
  | .ok (some (call, live)) =>
    let write := Effect.write call (X.nextExpirationUtc t.batchBuilt)
    match t.writer call with
    | .error e => ([.handle m, write], .error e)
    | .ok () => ([.handle m, write, .publish live], .ok ())

end JournalMessageHandler

/-- `MessageHandlerProvider.GetMessageHandlers`, for the one handler `Program` registers. -/
def getMessageHandlers (X : External J) (t : Turn) (e : MessageEvent) :
    List (JournalMessage → List Effect × Except Exn Unit) :=
  (JournalMessageHandler.handles.filter (· = e)).map fun _ => JournalMessageHandler.handle X t

/-- The handler loop: the first exception ends it. -/
def runHandlers (m : JournalMessage) :
    List (JournalMessage → List Effect × Except Exn Unit) → List Effect × Except Exn Unit
  | [] => ([], .ok ())
  | h :: hs =>
    match h m with
    | (es, .error e) => (es, .error e)
    | (es, .ok ()) =>
      let rest := runHandlers m hs
      (es ++ rest.1, rest.2)

/-- `JToken.Parse` and the factory: the message of a frame, if it is of a known schema. -/
def readMessage (X : External J) (json : Str) : Except Exn (Option EddnMessage) := do
  MessageFactory.create X (← X.parse json)

/-- The body of the try block of `ProcessMessageAsync`, up to the recovery line. -/
def dispatch (X : External J) (t : Turn) (json : Str) : List Effect × Except Exn Unit :=
  match readMessage X json with
  | .error e => ([], .error e)
  | .ok (some (.journal m)) => runHandlers m (getMessageHandlers X t m.event)
  | .ok (some .approachSettlement) => ([], .ok ())
  | .ok none => ([], .ok ())

/-- The fields of the receiver, its `StreamHealthTracker`, and the throttle of its heartbeat.
Times are UTC ticks; `DateTimeOffset.MinValue` is 0. -/
structure ReceiverState where
  consecutiveFailures : ℕ
  lastFailureLog : ℕ
  lastMessageTicks : ℕ
  messagesReceived : ℕ
  messagesHandled : ℕ
  lastWrittenTicks : ℤ
  lastReconnect : ℕ
  deriving DecidableEq

namespace Receiver

/-- 30 seconds, in ticks. -/
def failureLogInterval : ℕ := 30 * 10000000

def processMessage (X : External J) (t : Turn) (s : ReceiverState) (json : Str) :
    ReceiverState × List Effect :=
  match dispatch X t json with
  | (es, .ok ()) =>
    if s.consecutiveFailures > 0 then
      ({ s with consecutiveFailures := 0 }, es ++ [.logRecovered s.consecutiveFailures])
    else (s, es)
  | (es, .error _) =>
    let failures := s.consecutiveFailures + 1
    if failures = 1 ∨ t.failure - s.lastFailureLog > failureLogInterval then
      ({ s with consecutiveFailures := failures, lastFailureLog := t.failure },
        es ++ [.logError failures])
    else ({ s with consecutiveFailures := failures }, es)

/-- `RedisStreamHeartbeat.RecordAsync`. A failed write is logged and leaves the throttle
advanced. -/
def recordHeartbeat (t : Turn) (force : Bool) (s : ReceiverState) : ReceiverState × List Effect :=
  if !force ∧ (s.lastMessageTicks : ℤ) - s.lastWrittenTicks < RedisKeys.heartbeatWriteInterval then
    (s, [])
  else
    let s' := { s with lastWrittenTicks := s.lastMessageTicks }
    match t.heartbeatWrite with
    | .ok () => (s', [.heartbeat (DateTimeOffset.unixMilliseconds s.lastMessageTicks)])
    | .error _ => (s', [])

/-- `EddnStream.Receive`. -/
def receive (X : External J) : Option (List UInt8) → Except Exn (Option Str)
  | none => .ok none
  | some [] => .ok none
  | some bytes => do
    let uncompressed ← X.uncompressBuffer bytes
    return uncompressed.map X.getString

def recordMessage (t : Turn) (s : ReceiverState) : ReceiverState :=
  { s with lastMessageTicks := t.arrival, messagesReceived := s.messagesReceived + 1 }

def recordHandled (s : ReceiverState) : ReceiverState :=
  { s with messagesHandled := s.messagesHandled + 1 }

def shouldReconnect (reconnectAfterSilence : ℕ) (t : Turn) (s : ReceiverState) : Bool :=
  decide (t.idle - s.lastMessageTicks > reconnectAfterSilence) &&
    decide (t.idle - s.lastReconnect > reconnectAfterSilence)

/-- The body of the loop on a frame that was received. -/
def onFrame (X : External J) (shard : MessageShardFilter) (t : Turn) (s : ReceiverState)
    (str : Str) : ReceiverState × List Effect :=
  let s := recordMessage t s
  let (s, handled) :=
    if shard.owns str then processMessage X t (recordHandled s) str else (s, [])
  let (s, beat) := recordHeartbeat t false s
  (s, handled ++ beat)

/-- One turn of the loop; an exception here leaves `ExecuteAsync`. -/
def turn (X : External J) (shard : MessageShardFilter) (reconnectAfterSilence : ℕ) (t : Turn)
    (s : ReceiverState) : Except Exn (ReceiverState × List Effect) :=
  match receive X t.received with
  | .error e => .error e
  | .ok (some str) => .ok (onFrame X shard t s str)
  | .ok none =>
    if shouldReconnect reconnectAfterSilence t s then
      .ok ({ s with lastReconnect := t.reconnected }, [.reconnect])
    else .ok (s, [])

/-- How a run of `ExecuteAsync` ended, and what each completed turn did. -/
structure Outcome where
  escaped : Option Exn
  turns : List (List Effect)

/-- The loop until the stopping token fires, after the last turn of the list. -/
def loop (X : External J) (shard : MessageShardFilter) (reconnectAfterSilence : ℕ) :
    List Turn → ReceiverState → Outcome
  | [], _ => ⟨none, []⟩
  | t :: ts, s =>
    match turn X shard reconnectAfterSilence t s with
    | .error e => ⟨some e, []⟩
    | .ok (s', es) =>
      let rest := loop X shard reconnectAfterSilence ts s'
      ⟨rest.escaped, es :: rest.turns⟩

/-- A process that started at `start` connects and seeds the shared heartbeat. -/
def startup (start : ℕ) (seed : Turn) : ReceiverState × List Effect :=
  recordHeartbeat seed true ⟨0, 0, start, 0, 0, 0, seed.reconnected⟩

/-- `ExecuteAsync`: the forced heartbeat, then the loop. -/
def execute (X : External J) (shard : MessageShardFilter) (reconnectAfterSilence : ℕ) (start : ℕ)
    (seed : Turn) (ts : List Turn) : List Effect × Outcome :=
  let (s, seeded) := startup start seed
  (seeded, loop X shard reconnectAfterSilence ts s)

end Receiver

end EliteEvents
