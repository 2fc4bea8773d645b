import EliteEvents.Spec.Ingestion

/-! The API server as the operator uses it, and the cluster behind it. Every write stamps the
object with the next revision; an update of an object that has moved on conflicts; a call may
also fail on the way, before or after it took effect. -/

namespace EliteEvents

inductive Reason
  | notFound
  | alreadyExists
  | conflict
  /-- timeouts, rejected objects, an unreachable server -/
  | other
  deriving DecidableEq

structure ApiError where
  reason : Reason
  message : String
  deriving DecidableEq

def Kind.resource : Kind → String
  | .configMap => "configmaps"
  | .service => "services"
  | .deployment => "deployments.apps"
  | .cronJob => "cronjobs.batch"
  | .job => "jobs.batch"

def feedResource : String := "feedlisteners.elite.meancat.com"

def notFound (resource name : String) : ApiError :=
  ⟨.notFound, resource ++ " \"" ++ name ++ "\" not found"⟩

def alreadyExists (resource name : String) : ApiError :=
  ⟨.alreadyExists, resource ++ " \"" ++ name ++ "\" already exists"⟩

def conflict (resource name : String) : ApiError :=
  ⟨.conflict, "Operation cannot be fulfilled on " ++ resource ++ " \"" ++ name ++
    "\": the object has been modified; please apply your changes to the latest version and try again"⟩

/-- An event on a FeedListener. -/
structure Event where
  regarding : ℕ
  warning : Bool
  reason : String
  action : String
  note : String
  deriving DecidableEq

/-- What a consumer reports at `/health/stream`; times in nanoseconds. -/
structure StreamStatus where
  lastMessageUtc : Option ℤ
  messagesReceived : ℤ
  shardIndex : Int32
  shardCount : Int32
  deriving DecidableEq

/-- The calls a reconcile makes: to the API server, to a pod, and to the clock. -/
inductive Call
  | getFeed (name : String)
  | updateFeed (fl : FeedListener)
  | updateStatus (fl : FeedListener)
  | get (κ : Kind) (name : String)
  | create (κ : Kind) (name : String) (o : Obj κ)
  | update (κ : Kind) (name : String) (o : Obj κ)
  | delete (κ : Kind) (name : String) (foreground : Bool)
  | list (κ : Kind) (sel : Labels)
  | listPods (sel : Labels)
  | event (e : Event)
  | probe (podIP : String)
  | now

def Call.Result : Call → Type
  | .getFeed _ | .updateFeed _ | .updateStatus _ => FeedListener
  | .get κ _ | .create κ _ _ | .update κ _ _ => Obj κ
  | .delete _ _ _ | .event _ => Unit
  | .list κ _ => List (String × Obj κ)
  | .listPods _ => List Pod
  | .probe _ => StreamStatus
  | .now => ℤ

abbrev Answer (c : Call) := Except ApiError c.Result

structure Cluster where
  feeds : AList fun _ : String => FeedListener
  objs : (κ : Kind) → AList fun _ : String => Obj κ
  pods : AList fun _ : ℕ => Pod
  revision : ℕ

namespace Cluster

variable (s : Cluster)

def setFeed (fl : FeedListener) : Cluster :=
  { s with feeds := s.feeds.insert fl.name fl, revision := s.revision + 1 }

def dropFeed (name : String) : Cluster :=
  { s with feeds := s.feeds.erase name, revision := s.revision + 1 }

def set (κ : Kind) (name : String) (o : Obj κ) : Cluster :=
  { s with objs := Function.update s.objs κ ((s.objs κ).insert name o), revision := s.revision + 1 }

def drop (κ : Kind) (name : String) : Cluster :=
  { s with objs := Function.update s.objs κ ((s.objs κ).erase name), revision := s.revision + 1 }

def matching (κ : Kind) (sel : Labels) : List (String × Obj κ) :=
  ((s.objs κ).entries.filter fun e => sel.matches e.2.metadata.labels).map fun e => (e.1, e.2)

def matchingPods (sel : Labels) : List Pod :=
  (s.pods.entries.filter fun e => sel.matches e.2.labels).map fun e => e.2

/-- The spec and the finalizers of an update; the status is a subresource of its own, and the
server keeps the deletion mark. The generation counts changes of the spec. -/
def mergeFeed (cur fl : FeedListener) : FeedListener :=
  { cur with
    finalizers := fl.finalizers
    spec := fl.spec
    generation := if fl.spec = cur.spec then cur.generation else cur.generation + 1
    resourceVersion := s.revision + 1 }

/-- Metadata the server owns. -/
def stamp (m : ObjectMeta) (uid : ℕ) (deleting : Bool) : ObjectMeta :=
  { m with uid := uid, resourceVersion := s.revision + 1, deletionTimestamp := deleting }

/-- A call that reaches the server and comes back. `probe` and `now` are not answered here. -/
def serve : (c : Call) → Answer c × Cluster
  | .getFeed name =>
    match s.feeds.lookup name with
    | none => (.error (notFound feedResource name), s)
    | some fl => (.ok fl, s)
  | .updateFeed fl =>
    match s.feeds.lookup fl.name with
    | none => (.error (notFound feedResource fl.name), s)
    | some cur =>
      if cur.uid = fl.uid ∧ cur.resourceVersion = fl.resourceVersion then
        let new := s.mergeFeed cur fl
        -- a deleted object goes with its last finalizer
        if new.deletionTimestamp ∧ new.finalizers = [] then (.ok new, s.dropFeed fl.name)
        else (.ok new, s.setFeed new)
      else (.error (conflict feedResource fl.name), s)
  | .updateStatus fl =>
    match s.feeds.lookup fl.name with
    | none => (.error (notFound feedResource fl.name), s)
    | some cur =>
      if cur.uid = fl.uid ∧ cur.resourceVersion = fl.resourceVersion then
        let new := { cur with status := fl.status, resourceVersion := s.revision + 1 }
        (.ok new, s.setFeed new)
      else (.error (conflict feedResource fl.name), s)
  | .get κ name =>
    match (s.objs κ).lookup name with
    | none => (.error (notFound κ.resource name), s)
    | some o => (.ok o, s)
  | .create κ name o =>
    match (s.objs κ).lookup name with
    | some _ => (.error (alreadyExists κ.resource name), s)
    | none =>
      let new := o.withMetadata (s.stamp o.metadata (s.revision + 1) false)
      (.ok new, s.set κ name new)
  | .update κ name o =>
    match (s.objs κ).lookup name with
    | none => (.error (notFound κ.resource name), s)
    | some cur =>
      if cur.metadata.resourceVersion = o.metadata.resourceVersion then
        let new := o.withMetadata (s.stamp o.metadata cur.metadata.uid cur.metadata.deletionTimestamp)
        (.ok new, s.set κ name new)
      else (.error (conflict κ.resource name), s)
  | .delete κ name foreground =>
    match (s.objs κ).lookup name with
    | none => (.error (notFound κ.resource name), s)
    | some o =>
      -- in the foreground the object stays until its dependents are gone
      if foreground then
        (.ok (), s.set κ name (o.withMetadata (s.stamp o.metadata o.metadata.uid true)))
      else (.ok (), s.drop κ name)
  | .list κ sel => (.ok (s.matching κ sel), s)
  | .listPods sel => (.ok (s.matchingPods sel), s)
  | .event _ => (.ok (), s)
  | .probe _ => (.error ⟨.other, ""⟩, s)
  | .now => (.error ⟨.other, ""⟩, s)

end Cluster

/-- How a call fares: it is served, or fails before or after it took effect; and what the pod
and the clock say. -/
structure Fate where
  /-- the failure, and whether the server had acted on the call -/
  failure : Option (String × Bool)
  stream : Except String StreamStatus
  clock : ℤ

def Cluster.answer (s : Cluster) (f : Fate) (c : Call) : Answer c × Cluster :=
  match c with
  | .probe _ => (f.stream.mapError fun message => ⟨.other, message⟩, s)
  | .now => (.ok f.clock, s)
  | c =>
    match f.failure with
    | none => s.serve c
    | some (message, true) => (.error ⟨.other, message⟩, (s.serve c).2)
    | some (message, false) => (.error ⟨.other, message⟩, s)

end EliteEvents
