import EliteEvents.Lib.Decimal
import EliteEvents.Spec.FeedListener
import Mathlib.Data.List.Sort

/-! The builders of `resources.go` and `finalizer.go`: every child object of a feed, as a
function of the FeedListener alone. -/

namespace EliteEvents

def containerPort : ℕ := 8080
def redisAuthMountPath : String := "/etc/redis-auth"
def redisAuthVolume : String := "redis-auth"
def configHashAnnotation : String := "elite.meancat.com/config-hash"
def shardLabel : String := "elite.meancat.com/shard"
def probeTimeoutSeconds : ℕ := 3
def nameLabel : String := "app.kubernetes.io/name"
def instanceLabel : String := "app.kubernetes.io/instance"
def partOfLabel : String := "app.kubernetes.io/part-of"
def componentLabel : String := "app.kubernetes.io/component"
def partOfValue : String := "elite-events"
def shardIndexEnvVar : String := "Eddn__ShardIndex"
def shardCountKey : String := "Eddn__ShardCount"
def periodicKey : String := "IndexMaintenance__Periodic"

/-- `strconv.Itoa`. -/
def itoa (n : ℤ) : String := toString n

def configMapName (name : String) : String := name ++ "-config"
def serviceName (name : String) : String := name
def shardDeploymentName (name : String) (shard : ℕ) : String := name ++ "-" ++ itoa shard
def maintenanceCronJobName (name : String) : String := name ++ "-rebuild"
def drainJobName (name : String) : String := name ++ "-drain"

def maintenanceSchedule (spec : FeedListenerSpec) : String × Bool :=
  match spec.indexMaintenance.bind IndexMaintenanceSpec.schedule with
  | none => ("", false)
  | some schedule => (schedule, schedule != "")

def maintenanceLabels (name : String) : Labels :=
  [(nameLabel, "feed-maintenance"), (instanceLabel, name), (partOfLabel, partOfValue),
    (componentLabel, "maintenance")]

def drainLabels (name : String) : Labels :=
  [(nameLabel, "feed-drain"), (instanceLabel, name), (partOfLabel, partOfValue),
    (componentLabel, "drain")]

def selectorLabels (name : String) : Labels :=
  [(nameLabel, "feed-listener"), (instanceLabel, name)]

def shardSelectorLabels (name : String) (shard : ℕ) : Labels :=
  selectorLabels name ++ [(shardLabel, itoa shard)]

def objectLabels (name : String) : Labels :=
  selectorLabels name ++ [(partOfLabel, partOfValue), (componentLabel, "ingestion")]

/-- The labels of a shard's Deployment and of its pods. -/
def shardLabels (name : String) (shard : ℕ) : Labels :=
  objectLabels name ++ [(shardLabel, itoa shard)]

/-- `%02d` of a number that is not negative. -/
def pad2 (n : ℕ) : String := if n < 10 then "0" ++ toString n else toString n

/-- Whole seconds as `HH:MM:SS`; a negative duration counts as zero. -/
def aspNetDuration (d : ℤ) : String :=
  let totalSeconds := d.toNat / 1000000000
  pad2 (totalSeconds / 3600) ++ ":" ++ pad2 (totalSeconds % 3600 / 60) ++ ":" ++
    pad2 (totalSeconds % 60)

/-- `strconv.FormatBool`. -/
def formatBool (b : Bool) : String := if b then "true" else "false"

/-- The environment every shard shares. -/
def buildConfigData (spec : FeedListenerSpec) : Labels :=
  [ ("ASPNETCORE_ENVIRONMENT", "Production"),
    ("ConnectionStrings__Redis", spec.redis.connectionString),
    ("Eddn__StreamUrl", spec.relayEndpoint),
    (shardCountKey, itoa spec.consumers.toInt),
    ("Eddn__ReconnectAfterSilence", aspNetDuration spec.reconnectAfterSilence),
    (periodicKey, formatBool !(maintenanceSchedule spec).2),
    ("RedisLiveness__UnreachableRestartThreshold",
      aspNetDuration spec.redisUnreachableRestartAfter) ] ++
    match spec.redis.authSecret with
    | none => []
    | some secret => [("REDIS_AUTH_FILE", redisAuthMountPath ++ "/" ++ secret.key)]

/-- What `hashConfigData` feeds to SHA-256: each key and its value, both followed by a zero
byte, in the order of the keys. -/
def digestInput (data : Labels) : List UInt8 :=
  let sorted := data.insertionSort fun a b => a.1.toUTF8.toList ≤ b.1.toUTF8.toList
  sorted.flatMap fun p => p.1.toUTF8.toList ++ 0 :: (p.2.toUTF8.toList ++ [0])

def hexDigits (b : UInt8) : List Char := [Nat.digitChar (b.toNat / 16), Nat.digitChar (b.toNat % 16)]

def hashConfigData (sha256 : List UInt8 → List UInt8) (data : Labels) : String :=
  String.ofList (((sha256 (digestInput data)).flatMap hexDigits).take 16)

/-- Metadata of an object that has not been stored yet. -/
def newMetadata (labels : Labels) : ObjectMeta := ⟨labels, none, 0, 0, false⟩

def buildConfigMap (fl : FeedListener) : ConfigMap :=
  { metadata := newMetadata (objectLabels fl.name)
    data := buildConfigData fl.spec }

def buildService (fl : FeedListener) : Service :=
  { metadata := newMetadata (objectLabels fl.name)
    selector := selectorLabels fl.name
    ports := [⟨"http", containerPort, "http", "TCP"⟩] }

def defaultResources : ResourceRequirements :=
  { requests := some [("cpu", "100m"), ("memory", "128Mi")]
    limits := some [("memory", "384Mi")] }

def authVolumes (spec : FeedListenerSpec) : List (String × String) :=
  match spec.redis.authSecret with
  | none => []
  | some secret => [(redisAuthVolume, secret.name)]

def authMounts (spec : FeedListenerSpec) : List VolumeMount :=
  match spec.redis.authSecret with
  | none => []
  | some _ => [⟨redisAuthVolume, redisAuthMountPath, true⟩]

def shardContainer (fl : FeedListener) (shard : ℕ) : Container :=
  { name := "consumer"
    image := fl.spec.image
    args := []
    ports := [("http", containerPort)]
    envFrom := [configMapName fl.name]
    env := [(shardIndexEnvVar, itoa shard)]
    livenessProbe := some ⟨"/health/live", "http", 10, 30, some 5, probeTimeoutSeconds⟩
    readinessProbe := some ⟨"/health/ready", "http", 10, 15, none, probeTimeoutSeconds⟩
    resources := some
      (if fl.spec.resources.requests = none ∧ fl.spec.resources.limits = none then defaultResources
      else fl.spec.resources)
    allowPrivilegeEscalation := false
    dropCapabilities := ["ALL"]
    volumeMounts := authMounts fl.spec }

def buildShardDeployment (fl : FeedListener) (shard : ℕ) (configHash : String) : Deployment :=
  { metadata := newMetadata (shardLabels fl.name shard)
    replicas := 1
    strategy := .recreate
    selector := some (shardSelectorLabels fl.name shard)
    template :=
      { labels := shardLabels fl.name shard
        annotations := [( configHashAnnotation, configHash)]
        spec :=
          { restartPolicy := .always
            imagePullSecrets := fl.spec.imagePullSecrets
            runAsNonRoot := true
            container := shardContainer fl shard
            volumes := authVolumes fl.spec } } }

/-- A pod that runs the ingestion image as a command and exits. -/
def oneShotPodSpec (fl : FeedListener) (containerName arg : String) : PodSpec :=
  { restartPolicy := .never
    imagePullSecrets := fl.spec.imagePullSecrets
    runAsNonRoot := true
    container :=
      { name := containerName
        image := fl.spec.image
        args := [arg]
        ports := []
        envFrom := [configMapName fl.name]
        env := []
        livenessProbe := none
        readinessProbe := none
        resources := none
        allowPrivilegeEscalation := false
        dropCapabilities := ["ALL"]
        volumeMounts := authMounts fl.spec }
    volumes := authVolumes fl.spec }

def buildMaintenanceCronJob (fl : FeedListener) : CronJob :=
  let labels := maintenanceLabels fl.name
  { metadata := newMetadata labels
    schedule := (maintenanceSchedule fl.spec).1
    concurrencyPolicy := .forbid
    startingDeadlineSeconds := 60
    successfulJobsHistoryLimit := 3
    failedJobsHistoryLimit := 3
    jobTemplate :=
      { labels := labels
        backoffLimit := 2
        activeDeadlineSeconds :=
          match fl.spec.indexMaintenance with
          | none => none
          | some m => if m.activeDeadlineSeconds > 0 then some m.activeDeadlineSeconds else none
        template := ⟨labels, [], oneShotPodSpec fl "rebuild" "--rebuild-indexes"⟩ }
    lastSuccessfulTime := none }

def drainJobBackoffLimit : ℕ := 3

def buildDrainJob (fl : FeedListener) : Job :=
  { metadata := newMetadata (drainLabels fl.name)
    backoffLimit := drainJobBackoffLimit
    activeDeadlineSeconds := none
    template := ⟨drainLabels fl.name, [], oneShotPodSpec fl "drain" "--purge-indexes"⟩
    status := ⟨0, 0, false⟩ }

/-- `unicode.IsSpace`. -/
def isSpace (c : Char) : Bool :=
  c.toNat ∈ [0x09, 0x0A, 0x0B, 0x0C, 0x0D, 0x20, 0x85, 0xA0, 0x1680, 0x2028, 0x2029, 0x202F, 0x205F,
    0x3000] || (decide (0x2000 ≤ c.toNat) && decide (c.toNat ≤ 0x200A))

/-- `strings.TrimSpace`. -/
def trimSpace (cs : List Char) : List Char := ((cs.dropWhile isSpace).reverse.dropWhile isSpace).reverse

/-- `strconv.Atoi`. -/
def atoi (cs : List Char) : Option ℤ :=
  (Decimal.parse cs).filter fun n => decide (-2 ^ 63 ≤ n) && decide (n < 2 ^ 63)

/-- The shard a Deployment of this feed carries, if it is one. -/
def isOwnedShard (name : String) (deploy : Deployment) : Option Int32 :=
  let labels := deploy.metadata.labels
  if labels.lookup instanceLabel = some name ∧ labels.lookup nameLabel = some "feed-listener" then
    match labels.lookup shardLabel with
    | none => none
    | some raw => (atoi (trimSpace raw.toList)).map Int32.ofInt
  else none

end EliteEvents
