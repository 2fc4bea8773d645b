import EliteEvents.Spec.Ingestion
import EliteEvents.Spec.MaintenanceSchedule
import EliteEvents.Spec.Watchdog

/-! What a container of the ingestion image makes of its pod: `Program` picks from the arguments what to run, the host
binds the options from the environment, and `AddEliteRedis` connects with the password of a mounted file. The settings
files of the image say nothing about any of it, and `Production` keeps those of a developer away. -/

namespace EliteEvents

/-- What `Program` runs. -/
inductive ProgramMode
  | ingest
  | purge
  | rebuild
  deriving DecidableEq

namespace PurgeCommand
def flag : String := "--purge-indexes"
end PurgeCommand

namespace RebuildCommand
def flag : String := "--rebuild-indexes"
end RebuildCommand

def programMode (args : List String) : ProgramMode :=
  if PurgeCommand.flag ∈ args then .purge else if RebuildCommand.flag ∈ args then .rebuild else .ingest

/-! The pod. -/

/-- The variables of the container, given the data of each ConfigMap: its own first, and of the ConfigMaps the last
one. -/
def PodSpec.environment (configMaps : String → Labels) (p : PodSpec) : Labels :=
  containerEnv p.container (p.container.envFrom.reverse.flatMap configMaps)

/-- The files that the container sees of mounted Secrets, given the data of each. -/
def PodSpec.readAllText (secrets : String → Labels) (p : PodSpec) (path : String) : Option String :=
  p.container.volumeMounts.findSome? fun mount =>
    (p.volumes.lookup mount.name).bind fun secret =>
      (secrets secret).findSome? fun entry => if path = mount.mountPath ++ "/" ++ entry.1 then some entry.2 else none

/-! The configuration of the host. -/

namespace Configuration

/-- The key of a variable: `__` separates the sections. -/
def keyOf : List Char → List Char
  | '_' :: '_' :: cs => ':' :: keyOf cs
  | c :: cs => c :: keyOf cs
  | [] => []

/-- Keys are compared without their case. -/
def names (name key : String) : Bool := (keyOf name.toList).map Char.toLower = key.toList.map Char.toLower

def value (env : Labels) (key : String) : Option String := (env.find? fun p => names p.1 key).map Prod.snd

def convertToInt32 (text : List Char) : Option Int32 :=
  (Decimal.parse text).bind fun n => if -2 ^ 31 ≤ n ∧ n < 2 ^ 31 then some (Int32.ofInt n) else none

def convertToBoolean (text : List Char) : Option Bool :=
  if text.map Char.toLower = "true".toList then some true
  else if text.map Char.toLower = "false".toList then some false
  else none

/-- The binder on one property: the default where the key is absent, and an exception that names the key where its text
does not convert. The converters trim. -/
def bindProperty {α : Type} (env : Labels) (convert : List Char → Option α) (key : String) (initial : α) : Except String α :=
  match value env key with
  | none => .ok initial
  | some text =>
    match convert (trimSpace text.toList) with
    | none => .error key
    | some a => .ok a

end Configuration

open EliteEvents.Configuration

/-- All of `EddnOptions`. -/
structure EddnSection extends EddnOptions where
  streamUrl : String
  receiveHighWatermark : Int32
  receiveTimeout : ℕ
  reconnectAfterSilence : ℕ
  deriving DecidableEq

def EddnSection.default : EddnSection where
  shardIndex := 0
  shardCount := 1
  streamUrl := "tcp://eddn.edcd.io:9500"
  receiveHighWatermark := 1000
  receiveTimeout := 30 * TimeSpan.ticksPerSecond
  reconnectAfterSilence := 2 * 60 * TimeSpan.ticksPerSecond

def EddnSection.ofEnv (env : Labels) : Except String EddnSection := do
  let highWatermark ← bindProperty env convertToInt32 "Eddn:ReceiveHighWatermark" default.receiveHighWatermark
  let receiveTimeout ← bindProperty env TimeSpan.parse "Eddn:ReceiveTimeout" default.receiveTimeout
  let reconnect ← bindProperty env TimeSpan.parse "Eddn:ReconnectAfterSilence" default.reconnectAfterSilence
  let shardCount ← bindProperty env convertToInt32 "Eddn:ShardCount" default.shardCount
  let shardIndex ← bindProperty env convertToInt32 "Eddn:ShardIndex" default.shardIndex
  return {
    shardIndex := shardIndex
    shardCount := shardCount
    streamUrl := (value env "Eddn:StreamUrl").getD default.streamUrl
    receiveHighWatermark := highWatermark
    receiveTimeout := receiveTimeout
    reconnectAfterSilence := reconnect }

def IndexMaintenanceOptions.ofEnv (env : Labels) : Except String IndexMaintenanceOptions := do
  let periodic ← bindProperty env convertToBoolean "IndexMaintenance:Periodic" default.periodic
  let interval ← bindProperty env (fun text => (TimeSpan.parse text).map Int.ofNat) "IndexMaintenance:Interval" default.interval
  return ⟨periodic, interval⟩

def RedisLivenessOptions.ofEnv (env : Labels) : Except String RedisLivenessOptions := do
  let interval ← bindProperty env TimeSpan.parse "RedisLiveness:ProbeInterval" default.probeInterval
  let timeout ← bindProperty env TimeSpan.parse "RedisLiveness:ProbeTimeout" default.probeTimeout
  let threshold ← bindProperty env (fun text => (TimeSpan.parse text).map Int.ofNat) "RedisLiveness:UnreachableRestartThreshold"
    default.unreachableRestartThreshold
  return ⟨interval, timeout, threshold⟩

/-! The connection. -/

/-- What the multiplexer is opened with: the text that `ConfigurationOptions.Parse` reads, and the password that
replaces the one in it. -/
structure RedisConnection where
  connectionString : String
  password : Option String
  deriving DecidableEq

/-- `ServiceCollectionExtensions.Connect`. A file that is not there leaves the password alone. -/
def connect (env : Labels) (readAllText : String → Option String) : RedisConnection where
  connectionString := (value env "ConnectionStrings:Redis").getD "localhost:6379"
  password :=
    match env.lookup "REDIS_AUTH_FILE" with
    | none => none
    | some path =>
      if path = "" then none else (readAllText path).map fun text => String.ofList (trimSpace text.toList)

end EliteEvents
