import EliteEvents.Spec.Controller

/-! The operator at work on one feed: a worker that runs one reconcile at a time, the users who
create, edit and delete the FeedListener, and the controllers of the cluster, which start pods
and jobs from what the operator has written and clean up after it. All of them interleave. -/

namespace EliteEvents

/-- The CRD's bounds on the consumer count. -/
def FeedListenerSpec.Admitted (spec : FeedListenerSpec) : Prop :=
  1 ≤ spec.consumers ∧ spec.consumers ≤ 16

instance (spec : FeedListenerSpec) : Decidable spec.Admitted := inferInstanceAs (Decidable (_ ∧ _))

/-- What users and the cluster's own controllers do. -/
inductive ClusterAction
  | createFeed (spec : FeedListenerSpec)
  | editSpec (spec : FeedListenerSpec)
  | deleteFeed
  /-- a Deployment starts its pod -/
  | startShardPod (deployment : String)
  /-- a CronJob ticks -/
  | spawnJob (cronJob suffix : String)
  /-- a Job starts a pod -/
  | startJobPod (job : String)
  | podStatus (id : ℕ) (running : Bool) (readyCondition : Option Bool) (podIP : String)
  | podGone (id : ℕ)
  | jobStatus (job : String) (status : JobStatus)
  | cronStatus (cronJob : String) (lastSuccessfulTime : Option ℤ)
  /-- an object is marked for deletion -/
  | mark (κ : Kind) (name : String)
  /-- an object is deleted: garbage collection, a history limit, a user -/
  | gone (κ : Kind) (name : String)

/-- The data of all the ConfigMaps, if they are all there. -/
def Cluster.configData (s : Cluster) : List String → Option Labels
  | [] => some []
  | name :: rest => do
    let cm : ConfigMap ← (s.objs .configMap).lookup name
    let data ← s.configData rest
    return cm.data ++ data

/-- A new pod, its environment resolved once and for all; the ConfigMaps must exist. -/
def Cluster.startPod (s : Cluster) (t : PodTemplate) : Option Cluster := do
  let data ← s.configData t.spec.container.envFrom
  let pod : Pod :=
    { labels := t.labels
      running := true
      readyCondition := none
      podIP := ""
      env := containerEnv t.spec.container data }
  return { s with pods := s.pods.insert (s.revision + 1) pod, revision := s.revision + 1 }

/-- With strategy Recreate, a pod starts only when the old one is gone. -/
def Deployment.mayStart (d : Deployment) (s : Cluster) : Bool :=
  !d.metadata.deletionTimestamp && decide (1 ≤ d.replicas) &&
    (d.strategy == .rollingUpdate || (s.matchingPods (d.selector.getD [])).isEmpty)

/-- The Job a CronJob creates on a tick. -/
def CronJob.spawned (c : CronJob) (s : Cluster) : Job :=
  { metadata := s.stamp (newMetadata c.jobTemplate.labels) (s.revision + 1) false
    backoffLimit := c.jobTemplate.backoffLimit
    activeDeadlineSeconds := c.jobTemplate.activeDeadlineSeconds
    template := c.jobTemplate.template
    status := ⟨0, 0, false⟩ }

namespace ClusterAction

/-- The effect of an action, in a namespace whose feed has the given name. -/
def apply (feed : String) (a : ClusterAction) (s : Cluster) : Option Cluster :=
  match a with
  | .createFeed spec =>
    match s.feeds.lookup feed with
    | some _ => none
    | none =>
      if spec.Admitted then
        some (s.setFeed ⟨feed, s.revision + 1, s.revision + 1, 1, false, [], spec,
          ⟨0, .unset, 0, 0, none, none, []⟩⟩)
      else none
  | .editSpec spec => do
    let fl ← s.feeds.lookup feed
    if spec.Admitted then
      return s.setFeed (s.mergeFeed fl { fl with spec := spec })
    else none
  | .deleteFeed => do
    let fl ← s.feeds.lookup feed
    if fl.deletionTimestamp then none
    else if fl.finalizers = [] then return s.dropFeed feed
    else
      let deleted := { fl with deletionTimestamp := true, generation := fl.generation + 1,
                               resourceVersion := s.revision + 1 }
      return s.setFeed deleted
  | .startShardPod name => do
    let d : Deployment ← (s.objs .deployment).lookup name
    if d.mayStart s then s.startPod d.template else none
  | .spawnJob name suffix => do
    let c : CronJob ← (s.objs .cronJob).lookup name
    let job := name ++ ("-" ++ suffix)
    if c.metadata.deletionTimestamp then none
    else match (s.objs .job).lookup job with
      | some _ => none
      | none => return s.set .job job (c.spawned s)
  | .startJobPod name => do
    let job : Job ← (s.objs .job).lookup name
    if job.metadata.deletionTimestamp then none else s.startPod job.template
  | .podStatus id running readyCondition podIP => do
    let pod ← s.pods.lookup id
    let pod := { pod with running := running, readyCondition := readyCondition, podIP := podIP }
    return { s with pods := s.pods.insert id pod, revision := s.revision + 1 }
  | .podGone id => some { s with pods := s.pods.erase id, revision := s.revision + 1 }
  | .jobStatus name status => do
    let job : Job ← (s.objs .job).lookup name
    let job : Job :=
      { job with metadata := { job.metadata with resourceVersion := s.revision + 1 }, status := status }
    return s.set .job name job
  | .cronStatus name t => do
    let c : CronJob ← (s.objs .cronJob).lookup name
    let c : CronJob :=
      { c with metadata := { c.metadata with resourceVersion := s.revision + 1 }, lastSuccessfulTime := t }
    return s.set .cronJob name c
  | .mark κ name => do
    let o ← (s.objs κ).lookup name
    return s.set κ name (o.withMetadata (s.stamp o.metadata o.metadata.uid true))
  | .gone κ name => some (s.drop κ name)

end ClusterAction

/-- A call of the worker, with its answer and the cluster it was made on. -/
structure LogEntry where
  call : Call
  answer : Answer call
  before : Cluster

/-- The cluster, the calls so far (the last one first), and the rest of the current reconcile. -/
structure World where
  cluster : Cluster
  log : List LogEntry
  worker : Prog Call Answer (Except Err Requeue)

inductive Action
  /-- the worker takes up the feed -/
  | reconcile
  /-- the worker makes its next call -/
  | call (f : Fate)
  /-- the operator dies and restarts -/
  | crash
  | cluster (a : ClusterAction)

namespace World

variable (sha256 : List UInt8 → List UInt8) (feed : String)

def initial : World := ⟨⟨∅, fun _ => ∅, ∅, 0⟩, [], .pure (.ok none)⟩

def step (w : World) : Action → Option World
  | .reconcile =>
    match w.worker with
    | .pure _ => some { w with worker := EliteEvents.reconcile sha256 feed }
    | .call _ _ => none
  | .call f =>
    match w.worker with
    | .pure _ => none
    | .call c k =>
      let (r, s) := w.cluster.answer f c
      some ⟨s, ⟨c, r, w.cluster⟩ :: w.log, k r⟩
  | .crash => some { w with worker := .pure (.ok none) }
  | .cluster a => (a.apply feed w.cluster).map fun s => { w with cluster := s }

def run : List Action → World → Option World
  | [], w => some w
  | a :: as, w => (w.step sha256 feed a).bind (run as)

/-- Reachable by steps each of which meets a condition on the world it is taken in. -/
inductive Reaches (ok : World → Action → Prop) (w : World) : World → Prop
  | refl : Reaches ok w w
  | step {w₁ w₂ : World} (a : Action) (h : Reaches ok w w₁) (hok : ok w₁ a)
      (hs : w₁.step sha256 feed a = some w₂) : Reaches ok w w₂

end World

/-! Runs of the sample feed, for examples. -/

/-- SHA-256 of the configuration of the sample feed with one and with two consumers. -/
def eddnDigest (bytes : List UInt8) : List UInt8 :=
  if bytes = digestInput (buildConfigData (eddnSpec 1)) then
    [0xea, 0x76, 0x3f, 0x8f, 0x50, 0x3d, 0x3e, 0x4e, 0xd6, 0x62, 0x6c, 0x08, 0x50, 0x47, 0xa2, 0x2b,
      0x17, 0x82, 0x14, 0x7d, 0x2e, 0xe9, 0x08, 0x18, 0x44, 0xb2, 0x7b, 0x23, 0xc5, 0xc2, 0x4c, 0x29]
  else if bytes = digestInput (buildConfigData (eddnSpec 2)) then
    [0xd5, 0xc9, 0xe1, 0x2d, 0xed, 0x44, 0x8d, 0x65, 0x69, 0x4f, 0x4e, 0x69, 0x47, 0xcc, 0x98, 0x08,
      0x32, 0x14, 0x53, 0x4c, 0xd5, 0x16, 0x1c, 0xe8, 0x09, 0xb7, 0x93, 0xe4, 0xe6, 0x4b, 0x79, 0xec]
  else []

/-- The next calls of the worker, all of them served. -/
def served (n : ℕ) : List Action := List.replicate n (.call ⟨none, .error "", 0⟩)

end EliteEvents
