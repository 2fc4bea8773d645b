import Mathlib.Data.List.AList
import Mathlib.Tactic

/-! The custom resource (`FeedListener`) and the Kubernetes objects the operator builds from
it, with the fields its code reads or writes. Everything lives in one namespace, so objects are
known by kind and name. -/

namespace EliteEvents

abbrev Labels := List (String × String)

structure RedisAuthSecret where
  name : String
  key : String
  deriving DecidableEq

structure RedisConfig where
  connectionString : String
  authSecret : Option RedisAuthSecret
  deriving DecidableEq

structure IndexMaintenanceSpec where
  schedule : Option String
  activeDeadlineSeconds : ℤ
  deriving DecidableEq

structure ResourceRequirements where
  requests : Option Labels
  limits : Option Labels
  deriving DecidableEq

/-- Durations are Go's, in nanoseconds. -/
structure FeedListenerSpec where
  relayEndpoint : String
  consumers : Int32
  image : String
  imagePullSecrets : List String
  redis : RedisConfig
  reconnectAfterSilence : ℤ
  redisUnreachableRestartAfter : ℤ
  resources : ResourceRequirements
  indexMaintenance : Option IndexMaintenanceSpec
  retainIndexesOnDelete : Bool
  deriving DecidableEq

inductive FeedPhase
  | unset
  | pending
  | progressing
  | streaming
  | silent
  | degraded
  | terminating
  deriving DecidableEq

inductive ConditionType
  | available
  | progressing
  | streaming
  | degraded
  deriving DecidableEq

structure Condition where
  type : ConditionType
  status : Bool
  reason : String
  message : String
  observedGeneration : ℕ
  deriving DecidableEq

structure FeedListenerStatus where
  observedGeneration : ℕ
  phase : FeedPhase
  readyConsumers : Int32
  desiredConsumers : Int32
  lastMessageTime : Option ℤ
  lastIndexRebuildTime : Option ℤ
  conditions : List Condition
  deriving DecidableEq

structure FeedListener where
  name : String
  uid : ℕ
  resourceVersion : ℕ
  generation : ℕ
  deletionTimestamp : Bool
  finalizers : List String
  spec : FeedListenerSpec
  status : FeedListenerStatus
  deriving DecidableEq

/-- The feed of `config/samples` with the defaults of the CRD filled in, at a consumer count. -/
def eddnSpec (consumers : Int32) : FeedListenerSpec where
  relayEndpoint := "tcp://eddn.edcd.io:9500"
  consumers := consumers
  image := "registry.digitalocean.com/meancat/elite-ingestion:1.0.0-alpha.g8380e4311a"
  imagePullSecrets := ["meancat"]
  redis := ⟨"redis:6379,abortConnect=false", some ⟨"redis-auth", "password"⟩⟩
  reconnectAfterSilence := 2 * 60 * 1000000000
  redisUnreachableRestartAfter := 15 * 60 * 1000000000
  resources := ⟨none, none⟩
  indexMaintenance := some ⟨some "17 * * * *", 900⟩
  retainIndexesOnDelete := false

/-- That feed as it is stored when it is created. -/
def eddnFeed (uid : ℕ) (consumers : Int32) : FeedListener where
  name := "eddn"
  uid := uid
  resourceVersion := 0
  generation := 1
  deletionTimestamp := false
  finalizers := []
  spec := eddnSpec consumers
  status := ⟨0, .unset, 0, 0, none, none, []⟩

def feedListenerFinalizer : String := "elite.meancat.com/drain-feed"

/-- The controller owner reference; its kind is always FeedListener. -/
structure OwnerRef where
  name : String
  uid : ℕ
  deriving DecidableEq

structure ObjectMeta where
  labels : Labels
  owner : Option OwnerRef
  uid : ℕ
  resourceVersion : ℕ
  deletionTimestamp : Bool
  deriving DecidableEq

structure Probe where
  path : String
  port : String
  initialDelaySeconds : ℕ
  periodSeconds : ℕ
  failureThreshold : Option ℕ
  timeoutSeconds : ℕ
  deriving DecidableEq

structure VolumeMount where
  name : String
  mountPath : String
  readOnly : Bool
  deriving DecidableEq

structure Container where
  name : String
  image : String
  args : List String
  ports : List (String × ℕ)
  /-- ConfigMaps whose data become environment variables -/
  envFrom : List String
  env : Labels
  livenessProbe : Option Probe
  readinessProbe : Option Probe
  resources : Option ResourceRequirements
  allowPrivilegeEscalation : Bool
  dropCapabilities : List String
  volumeMounts : List VolumeMount
  deriving DecidableEq

inductive RestartPolicy
  | always
  | never
  deriving DecidableEq

structure PodSpec where
  restartPolicy : RestartPolicy
  imagePullSecrets : List String
  runAsNonRoot : Bool
  container : Container
  /-- volume name and the Secret it mounts -/
  volumes : List (String × String)
  deriving DecidableEq

structure PodTemplate where
  labels : Labels
  annotations : Labels
  spec : PodSpec
  deriving DecidableEq

def PodTemplate.blank : PodTemplate :=
  ⟨[], [], ⟨.always, [], false, ⟨"", "", [], [], [], [], none, none, none, true, [], []⟩, []⟩⟩

structure ConfigMap where
  metadata : ObjectMeta
  data : Labels
  deriving DecidableEq

structure ServicePort where
  name : String
  port : ℕ
  targetPort : String
  protocol : String
  deriving DecidableEq

structure Service where
  metadata : ObjectMeta
  selector : Labels
  ports : List ServicePort
  deriving DecidableEq

inductive DeploymentStrategy
  | recreate
  | rollingUpdate
  deriving DecidableEq

structure Deployment where
  metadata : ObjectMeta
  replicas : ℕ
  strategy : DeploymentStrategy
  selector : Option Labels
  template : PodTemplate
  deriving DecidableEq

inductive ConcurrencyPolicy
  | allow
  | forbid
  deriving DecidableEq

structure JobTemplate where
  labels : Labels
  backoffLimit : ℕ
  activeDeadlineSeconds : Option ℤ
  template : PodTemplate
  deriving DecidableEq

structure CronJob where
  metadata : ObjectMeta
  schedule : String
  concurrencyPolicy : ConcurrencyPolicy
  startingDeadlineSeconds : ℕ
  successfulJobsHistoryLimit : ℕ
  failedJobsHistoryLimit : ℕ
  jobTemplate : JobTemplate
  lastSuccessfulTime : Option ℤ
  deriving DecidableEq

/-- `failedCondition`: there is a condition of type Failed with status True. -/
structure JobStatus where
  succeeded : ℕ
  failed : ℕ
  failedCondition : Bool
  deriving DecidableEq

structure Job where
  metadata : ObjectMeta
  backoffLimit : ℕ
  activeDeadlineSeconds : Option ℤ
  template : PodTemplate
  status : JobStatus
  deriving DecidableEq

/-- `env` is the environment of the container, resolved when it started. -/
structure Pod where
  labels : Labels
  running : Bool
  readyCondition : Option Bool
  podIP : String
  env : Labels
  deriving DecidableEq

/-- The kinds of object the operator creates. -/
inductive Kind
  | configMap
  | service
  | deployment
  | cronJob
  | job
  deriving DecidableEq

def Obj : Kind → Type
  | .configMap => ConfigMap
  | .service => Service
  | .deployment => Deployment
  | .cronJob => CronJob
  | .job => Job

instance (κ : Kind) : DecidableEq (Obj κ) :=
  match κ with
  | .configMap => inferInstanceAs (DecidableEq ConfigMap)
  | .service => inferInstanceAs (DecidableEq Service)
  | .deployment => inferInstanceAs (DecidableEq Deployment)
  | .cronJob => inferInstanceAs (DecidableEq CronJob)
  | .job => inferInstanceAs (DecidableEq Job)

def Obj.metadata : {κ : Kind} → Obj κ → ObjectMeta
  | .configMap, (o : ConfigMap) => o.metadata
  | .service, (o : Service) => o.metadata
  | .deployment, (o : Deployment) => o.metadata
  | .cronJob, (o : CronJob) => o.metadata
  | .job, (o : Job) => o.metadata

def Obj.withMetadata : {κ : Kind} → Obj κ → ObjectMeta → Obj κ
  | .configMap, (o : ConfigMap), m => { o with metadata := m }
  | .service, (o : Service), m => { o with metadata := m }
  | .deployment, (o : Deployment), m => { o with metadata := m }
  | .cronJob, (o : CronJob), m => { o with metadata := m }
  | .job, (o : Job), m => { o with metadata := m }

/-- An object before the first `Get` fills it in. -/
def Obj.blank : (κ : Kind) → Obj κ
  | .configMap => (⟨⟨[], none, 0, 0, false⟩, []⟩ : ConfigMap)
  | .service => (⟨⟨[], none, 0, 0, false⟩, [], []⟩ : Service)
  | .deployment => (⟨⟨[], none, 0, 0, false⟩, 0, .rollingUpdate, none, PodTemplate.blank⟩ : Deployment)
  | .cronJob =>
    (⟨⟨[], none, 0, 0, false⟩, "", .allow, 0, 0, 0, ⟨[], 0, none, PodTemplate.blank⟩, none⟩ : CronJob)
  | .job => (⟨⟨[], none, 0, 0, false⟩, 0, none, PodTemplate.blank, ⟨0, 0, false⟩⟩ : Job)

/-- `MatchingLabels`. -/
def Labels.matches (sel labels : Labels) : Bool :=
  sel.all fun p => decide (labels.lookup p.1 = some p.2)

end EliteEvents
