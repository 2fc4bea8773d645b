import EliteEvents.Lib.Prog
import EliteEvents.Spec.Kubernetes

/-! The reconciler (`feedlistener_controller.go`, `status.go`, `finalizer.go`) as a program of
API calls. What it does next depends only on the answers; others may change the cluster between
any two of its calls. -/

namespace EliteEvents

/-- Go errors: what the client returned, and the context wrapped around it. -/
inductive Err
  | api (e : ApiError)
  | alreadyOwned (owner : String)
  | wrap (context : String) (cause : Err)
  deriving DecidableEq

def Err.message : Err → String
  | .api e => e.message
  | .alreadyOwned owner => "Object is already owned by another FeedListener controller " ++ owner
  | .wrap context cause => context ++ ": " ++ cause.message

/-- `ctrl.Result`: when to run again, in seconds, if at all. -/
abbrev Requeue := Option ℕ

abbrev Reconciler (α : Type) := ExceptT Err (Prog Call Answer) α

/-- A call whose error the caller looks at. -/
def attempt (c : Call) : Reconciler (Answer c) := ExceptT.lift (Prog.perform c)

/-- A call whose error ends the reconcile. -/
def request (c : Call) : Reconciler c.Result := do
  match ← attempt c with
  | .error e => throw (.api e)
  | .ok r => return r

/-- `fmt.Errorf("context: %w", err)`. -/
def wrapping {α : Type} (context : String) (m : Reconciler α) : Reconciler α :=
  tryCatch m fun e => throw (.wrap context e)

/-- A deletion; an object that is gone already is no error. -/
def deleteIfExists (κ : Kind) (name : String) (foreground : Bool) : Reconciler Unit := do
  match ← attempt (.delete κ name foreground) with
  | .error e => if e.reason = .notFound then return () else throw (.api e)
  | .ok _ => return ()

def eventf (fl : FeedListener) (warning : Bool) (reason action note : String) : Reconciler Unit := do
  let _ ← attempt (.event ⟨fl.uid, warning, reason, action, note⟩)

/-- `controllerutil.SetControllerReference`: an owner is compared by kind and name, and its UID
is overwritten. -/
def setControllerReference (fl : FeedListener) (m : ObjectMeta) : Except Err ObjectMeta :=
  match m.owner with
  | none => .ok { m with owner := some ⟨fl.name, fl.uid⟩ }
  | some r =>
    if r.name = fl.name then .ok { m with owner := some ⟨fl.name, fl.uid⟩ }
    else .error (.alreadyOwned r.name)

/-- What a mutate function returns: its fields assigned, and the owner set. -/
def owned (κ : Kind) (fl : FeedListener) (o : Obj κ) : Except Err (Obj κ) :=
  (setControllerReference fl o.metadata).map o.withMetadata

/-- `controllerutil.CreateOrUpdate`. -/
def createOrUpdate (κ : Kind) (name : String) (mutate : Obj κ → Except Err (Obj κ)) :
    Reconciler Unit := do
  match ← attempt (.get κ name) with
  | .error e =>
    if e.reason = .notFound then
      let o ← liftExcept (mutate (Obj.blank κ))
      let _ ← request (.create κ name o)
    else throw (.api e)
  | .ok (existing : Obj κ) =>
    let o ← liftExcept (mutate existing)
    if o = existing then return ()
    else
      let _ ← request (.update κ name o)
where
  liftExcept {β : Type} (x : Except Err β) : Reconciler β := ExceptT.mk (.pure x)

/-- The fields of metadata and of each kind that the operator owns; the rest stays. -/
def relabel (m : ObjectMeta) (labels : Labels) : ObjectMeta := { m with labels := labels }

def mutateConfigMap (fl : FeedListener) (cm : ConfigMap) : Except Err (Obj .configMap) :=
  let desired := buildConfigMap fl
  owned .configMap fl
    ({ metadata := relabel cm.metadata desired.metadata.labels, data := desired.data } : ConfigMap)

def mutateService (fl : FeedListener) (svc : Service) : Except Err (Obj .service) :=
  let desired := buildService fl
  owned .service fl
    ({ metadata := relabel svc.metadata desired.metadata.labels
       selector := desired.selector
       ports := desired.ports } : Service)

def mutateDeployment (fl : FeedListener) (shard : ℕ) (configHash : String) (deploy : Deployment) :
    Except Err (Obj .deployment) :=
  let desired := buildShardDeployment fl shard configHash
  owned .deployment fl
    ({ metadata := relabel deploy.metadata desired.metadata.labels
       replicas := desired.replicas
       strategy := desired.strategy
       -- immutable once set
       selector := if deploy.selector = none then desired.selector else deploy.selector
       template := desired.template } : Deployment)

def mutateCronJob (fl : FeedListener) (cronJob : CronJob) : Except Err (Obj .cronJob) :=
  let desired := buildMaintenanceCronJob fl
  owned .cronJob fl
    ({ metadata := relabel cronJob.metadata desired.metadata.labels
       schedule := desired.schedule
       concurrencyPolicy := desired.concurrencyPolicy
       startingDeadlineSeconds := desired.startingDeadlineSeconds
       successfulJobsHistoryLimit := desired.successfulJobsHistoryLimit
       failedJobsHistoryLimit := desired.failedJobsHistoryLimit
       jobTemplate := desired.jobTemplate
       lastSuccessfulTime := cronJob.lastSuccessfulTime } : CronJob)

/-! Status, from the pods and what they report. -/

/-- The digits of a fraction, without trailing zeros. -/
def durationFraction (v width : ℕ) : String :=
  let digits := (DateTimeOffset.padded width v).reverse.dropWhile (· = '0')
  if digits = [] then "" else "." ++ String.ofList digits.reverse

/-- `time.Duration.String`. -/
def durationString (d : ℤ) : String :=
  let u := d.natAbs
  let text :=
    if u = 0 then "0s"
    else if u < 1000 then itoa u ++ "ns"
    else if u < 1000000 then itoa (u / 1000 : ℕ) ++ durationFraction (u % 1000) 3 ++ "µs"
    else if u < 1000000000 then itoa (u / 1000000 : ℕ) ++ durationFraction (u % 1000000) 6 ++ "ms"
    else
      let seconds := u / 1000000000
      let minutes := seconds / 60
      let hours := minutes / 60
      (if hours > 0 then itoa hours ++ "h" else "") ++
        (if minutes > 0 then itoa (minutes % 60 : ℕ) ++ "m" else "") ++
        itoa (seconds % 60 : ℕ) ++ durationFraction (u % 1000000000) 9 ++ "s"
  if d < 0 then "-" ++ text else text

/-- `meta.SetStatusCondition`. -/
def setStatusCondition (c : Condition) : List Condition → List Condition
  | [] => [c]
  | d :: rest => if d.type = c.type then c :: rest else d :: setStatusCondition c rest

/-- `meta.RemoveStatusCondition`. -/
def removeStatusCondition (t : ConditionType) (cs : List Condition) : List Condition :=
  cs.filter fun c => decide (c.type ≠ t)

def FeedListener.withCondition (fl : FeedListener) (t : ConditionType) (status : Bool)
    (reason message : String) : FeedListener :=
  { fl with status := { fl.status with
      conditions := setStatusCondition ⟨t, status, reason, message, fl.generation⟩ fl.status.conditions } }

def setAvailability (fl : FeedListener) (ready : Int32) : FeedListener :=
  let message :=
    if ready > 0 then itoa ready.toInt ++ " of " ++ itoa fl.spec.consumers.toInt ++ " consumers ready"
    else "0 of " ++ itoa fl.spec.consumers.toInt ++ " consumers ready"
  let fl := fl.withCondition .available (decide (ready > 0))
    (if ready > 0 then "ConsumersReady" else "NoConsumersReady") message
  fl.withCondition .progressing (decide (ready < fl.spec.consumers))
    (if ready < fl.spec.consumers then "ConsumersStarting" else "PartitionComplete") message

def setStreaming (fl : FeedListener) (streamingShards : ℕ) : FeedListener × Bool :=
  let streaming :=
    decide (Int32.ofNat streamingShards = fl.spec.consumers) && decide (fl.spec.consumers > 0)
  let message := itoa streamingShards ++ " of " ++ itoa fl.spec.consumers.toInt ++
    " shards received a message within " ++ durationString fl.spec.reconnectAfterSilence
  (fl.withCondition .streaming streaming (if streaming then "FeedActive" else "FeedSilent") message,
    streaming)

def derivePhase (fl : FeedListener) (ready : Int32) (streaming : Bool) : FeedPhase :=
  if ready = 0 then .pending
  else if ready < fl.spec.consumers then .progressing
  else if streaming then .streaming
  else .silent

def isPodReady (pod : Pod) : Bool := pod.running && pod.readyCondition.getD false

/-- The counters of `reconcileStatus`, over the pods seen so far. -/
structure PodTally where
  ready : Int32
  lastMessage : Option ℤ
  streamingShards : ℕ

def tallyPods (fl : FeedListener) (t : PodTally) : List Pod → Reconciler PodTally
  | [] => return t
  | pod :: rest => do
    if !isPodReady pod || pod.podIP = "" then tallyPods fl t rest
    else
      let t := { t with ready := t.ready + 1 }
      match ← attempt (.probe pod.podIP) with
      | .error _ => tallyPods fl t rest
      | .ok status =>
        match StreamStatus.lastMessageUtc status with
        | none => tallyPods fl t rest
        | some last =>
          let lastMessage :=
            match t.lastMessage with
            | none => last
            | some seen => if seen < last then last else seen
          let now ← attempt .now
          let recent :=
            match now with
            | .ok (now : ℤ) => decide (now - last ≤ fl.spec.reconnectAfterSilence)
            | .error _ => false
          tallyPods fl
            { t with lastMessage := some lastMessage
                     streamingShards := t.streamingShards + (if recent then 1 else 0) } rest

def observeIndexMaintenance (fl : FeedListener) : Reconciler FeedListener := do
  if (maintenanceSchedule fl.spec).2 then
    match ← attempt (.get .cronJob (maintenanceCronJobName fl.name)) with
    | .error _ => return fl
    | .ok (cronJob : CronJob) =>
      return { fl with status := { fl.status with lastIndexRebuildTime := cronJob.lastSuccessfulTime } }
  else
    return { fl with status := { fl.status with lastIndexRebuildTime := none } }

/-- 30 seconds. -/
def statusPollInterval : ℕ := 30

/-- The status that a tally of the pods amounts to. -/
def tallied (fl : FeedListener) (t : PodTally) : FeedListener :=
  { fl with status := { fl.status with
      observedGeneration := fl.generation
      desiredConsumers := fl.spec.consumers
      readyConsumers := t.ready
      lastMessageTime := t.lastMessage.or fl.status.lastMessageTime } }

def derived (fl : FeedListener) (t : PodTally) : FeedListener :=
  let (fl, streaming) := setStreaming (setAvailability fl t.ready) t.streamingShards
  { fl with status := { fl.status with
      conditions := removeStatusCondition .degraded fl.status.conditions
      phase := derivePhase fl t.ready streaming } }

def reconcileStatus (fl : FeedListener) : Reconciler Requeue := do
  let pods ← wrapping "listing consumer pods" (request (.listPods (selectorLabels fl.name)))
  let t ← tallyPods fl ⟨0, none, 0⟩ pods
  let fl ← observeIndexMaintenance (tallied fl t)
  let _ ← wrapping "updating status" (request (.updateStatus (derived fl t)))
  return some statusPollInterval

def markDegraded (fl : FeedListener) (reason : String) (cause : Err) : FeedListener :=
  let fl := fl.withCondition .degraded true reason cause.message
  { fl with status := { fl.status with phase := .degraded, observedGeneration := fl.generation } }

/-- An error of a reconcile step is recorded on the resource, and then returned. -/
def failed {α : Type} (fl : FeedListener) (reason : String) (e : Err) : Reconciler α := do
  eventf fl true reason "Reconcile" e.message
  let _ ← attempt (.updateStatus (markDegraded fl reason e))
  throw e

section Reconcile

variable (sha256 : List UInt8 → List UInt8)

def reconcileConfigMap (fl : FeedListener) : Reconciler String := do
  createOrUpdate .configMap (configMapName fl.name) (mutateConfigMap fl)
  return hashConfigData sha256 (buildConfigData fl.spec)

def reconcileService (fl : FeedListener) : Reconciler Unit :=
  createOrUpdate .service (serviceName fl.name) (mutateService fl)

/-- The shards of the list, in order. -/
def updateShards (fl : FeedListener) (configHash : String) : List ℕ → Reconciler Unit
  | [] => return ()
  | shard :: rest => do
    wrapping ("shard " ++ itoa shard)
      (createOrUpdate .deployment (shardDeploymentName fl.name shard)
        (mutateDeployment fl shard configHash))
    updateShards fl configHash rest

/-- The loop of `pruneStaleShards` over the Deployments it listed. -/
def pruneAll (fl : FeedListener) : List (String × Obj .deployment) → Reconciler Unit
  | [] => return ()
  | (name, deploy) :: rest => do
    match isOwnedShard fl.name deploy with
    | none => pruneAll fl rest
    | some shard =>
      if shard < fl.spec.consumers then pruneAll fl rest
      else
        wrapping ("pruning shard " ++ itoa shard.toInt) (deleteIfExists .deployment name false)
        eventf fl false "ShardPruned" "Prune" ("Removed shard " ++ itoa shard.toInt ++
          "; consumer count is now " ++ itoa fl.spec.consumers.toInt)
        pruneAll fl rest

def pruneStaleShards (fl : FeedListener) : Reconciler Unit := do
  let deployments ← wrapping "listing shards" (request (.list .deployment (selectorLabels fl.name)))
  pruneAll fl deployments

def reconcileShards (fl : FeedListener) (configHash : String) : Reconciler Unit := do
  updateShards fl configHash (List.range fl.spec.consumers.toNatClampNeg)
  pruneStaleShards fl

def deleteMaintenanceCronJob (fl : FeedListener) : Reconciler Unit :=
  wrapping "removing maintenance cronjob"
    (deleteIfExists .cronJob (maintenanceCronJobName fl.name) false)

def reconcileMaintenance (fl : FeedListener) : Reconciler Unit :=
  if (maintenanceSchedule fl.spec).2 then
    wrapping "reconciling maintenance cronjob"
      (createOrUpdate .cronJob (maintenanceCronJobName fl.name) (mutateCronJob fl))
  else deleteMaintenanceCronJob fl

end Reconcile

/-! Teardown. -/

/-- 5 seconds. -/
def drainPollInterval : ℕ := 5

def jobFailed (job : Job) : Bool :=
  decide (job.status.failed > drainJobBackoffLimit) || job.status.failedCondition

def releaseFinalizer (fl : FeedListener) : Reconciler Requeue := do
  let kept := fl.finalizers.filter (· ≠ feedListenerFinalizer)
  match ← attempt (.updateFeed { fl with finalizers := kept }) with
  | .error e =>
    if e.reason = .notFound then return none else throw (.wrap "releasing finalizer" (.api e))
  | .ok _ => return none

/-- The two deletion loops of `stopWriters`: what is not marked for deletion is deleted. -/
def stopAll (κ : Kind) (what : String) (foreground : Bool) : List (String × Obj κ) → Reconciler Unit
  | [] => return ()
  | (name, o) :: rest => do
    if o.metadata.deletionTimestamp then stopAll κ what foreground rest
    else
      wrapping ("stopping " ++ what ++ " " ++ name) (deleteIfExists κ name foreground)
      stopAll κ what foreground rest

/-- Whether no pod of any of the label sets is left. -/
def podsGone : List Labels → Reconciler Bool
  | [] => return true
  | labels :: rest => do
    let pods : List Pod ← wrapping "listing writer pods during drain" (request (.listPods labels))
    if pods.isEmpty then podsGone rest else return false

def stopWriters (fl : FeedListener) : Reconciler Bool := do
  wrapping "stopping maintenance cronjob"
    (deleteIfExists .cronJob (maintenanceCronJobName fl.name) false)
  let deployments ← wrapping "listing shards during drain"
    (request (.list .deployment (selectorLabels fl.name)))
  stopAll .deployment "shard" false deployments
  let jobs ← wrapping "listing maintenance jobs during drain"
    (request (.list .job (maintenanceLabels fl.name)))
  stopAll .job "maintenance job" true jobs
  podsGone [selectorLabels fl.name, maintenanceLabels fl.name]

/-- The Job was created just now, or a moment ago by someone else. -/
def announceDrain (fl : FeedListener) (job : Job) : Reconciler Job := do
  eventf fl false "Draining" "Drain" ("Purging Redis search indexes via job " ++ drainJobName fl.name)
  return job

def createDrainJob (fl : FeedListener) (desired : Job) : Reconciler Job := do
  match ← attempt (.create .job (drainJobName fl.name) desired) with
  | .error e =>
    if e.reason = .alreadyExists then announceDrain fl desired
    else throw (.wrap "creating drain job" (.api e))
  | .ok (created : Job) => announceDrain fl created

def ensureDrainJob (fl : FeedListener) : Reconciler Job := do
  match ← attempt (.get .job (drainJobName fl.name)) with
  | .ok (job : Job) => return job
  | .error e =>
    if e.reason = .notFound then
      match setControllerReference fl (buildDrainJob fl).metadata with
      | .error e => throw e
      | .ok metadata => createDrainJob fl { buildDrainJob fl with metadata := metadata }
    else throw (.wrap "reading drain job" (.api e))

/-- What became of the drain. -/
def finishDrain (fl : FeedListener) (job : Job) : Reconciler Requeue := do
  if job.status.succeeded > 0 then
    eventf fl false "Drained" "Drain" "Redis search indexes purged"
    releaseFinalizer fl
  else if jobFailed job then
    eventf fl true "DrainFailed" "Drain" ("Drain job " ++ drainJobName fl.name ++ " failed after " ++
      itoa drainJobBackoffLimit ++ " attempts; Redis search indexes may be left behind")
    releaseFinalizer fl
  else return some drainPollInterval

/-- A feed that is on its way out says so; a status that cannot be written is only logged. -/
def markTerminating (fl : FeedListener) : Reconciler FeedListener := do
  if fl.status.phase = .terminating then return fl
  else
    let fl := { fl with status := { fl.status with phase := .terminating } }
    match ← attempt (.updateStatus fl) with
    | .error _ => return fl
    | .ok (fl : FeedListener) => return fl

def finalize (fl : FeedListener) : Reconciler Requeue := do
  if feedListenerFinalizer ∉ fl.finalizers then return none
  else
    let fl ← markTerminating fl
    if fl.spec.retainIndexesOnDelete then
      eventf fl false "DrainSkipped" "Drain"
        "retainIndexesOnDelete is set; Redis search indexes were left in place"
      releaseFinalizer fl
    else
      let stopped ← stopWriters fl
      if stopped then
        let job ← ensureDrainJob fl
        finishDrain fl job
      else return some drainPollInterval

/-- The finalizer is in place before any child exists. -/
def registerFinalizer (fl : FeedListener) : Reconciler FeedListener :=
  if feedListenerFinalizer ∈ fl.finalizers then return fl
  else wrapping "registering finalizer"
    (request (.updateFeed { fl with finalizers := fl.finalizers ++ [feedListenerFinalizer] }))

/-- The children of a feed that is not being deleted, then its status. -/
def reconcileChildren (sha256 : List UInt8 → List UInt8) (fl : FeedListener) : Reconciler Requeue := do
  let configHash ← tryCatch (reconcileConfigMap sha256 fl) (failed fl "ConfigMapError")
  tryCatch (reconcileService fl) (failed fl "ServiceError")
  tryCatch (reconcileShards fl configHash) (failed fl "ShardError")
  tryCatch (reconcileMaintenance fl) (failed fl "MaintenanceError")
  reconcileStatus fl

/-- `Reconcile`, for the FeedListener of a name. -/
def reconcile (sha256 : List UInt8 → List UInt8) (name : String) : Reconciler Requeue := do
  match ← attempt (.getFeed name) with
  | .error e => if e.reason = .notFound then return none else throw (.api e)
  | .ok (fl : FeedListener) =>
    if fl.deletionTimestamp then finalize fl
    else
      let fl ← registerFinalizer fl
      reconcileChildren sha256 fl

end EliteEvents
