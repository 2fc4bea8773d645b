import EliteEvents.Spec.Operator

/-! A namespace with any number of feeds. Each has a worker of its own, which runs one reconcile at
a time; they all share one cluster, and interleave with the users and with the cluster's own
controllers. -/

namespace EliteEvents

structure Namespace where
  cluster : Cluster
  workers : String → Prog Call Answer (Except Err Requeue)

inductive NamespaceAction
  | reconcile (feed : String)
  | call (feed : String) (f : Fate)
  /-- the operator dies and restarts -/
  | crash
  | cluster (feed : String) (a : ClusterAction)

/-- A CronJob names its Jobs by the minute they are due. -/
def ClusterAction.scheduled : ClusterAction → Bool
  | .spawnJob _ suffix => suffix.toList.all Char.isDigit
  | _ => true

namespace Namespace

variable (sha256 : List UInt8 → List UInt8)

def initial : Namespace := ⟨World.initial.cluster, fun _ => .pure (.ok none)⟩

def step (n : Namespace) : NamespaceAction → Option Namespace
  | .reconcile feed =>
    match n.workers feed with
    | .pure _ => some { n with workers := Function.update n.workers feed (EliteEvents.reconcile sha256 feed) }
    | .call _ _ => none
  | .call feed f =>
    match n.workers feed with
    | .pure _ => none
    | .call c k =>
      let (r, s) := n.cluster.answer f c
      some ⟨s, Function.update n.workers feed (k r)⟩
  | .crash => some { n with workers := fun _ => .pure (.ok none) }
  | .cluster feed a =>
    if a.scheduled then (a.apply feed n.cluster).map fun s => { n with cluster := s } else none

/-- Reachable by steps each of which meets a condition on the namespace it is taken in. -/
inductive Reaches (ok : Namespace → NamespaceAction → Prop) (n : Namespace) : Namespace → Prop
  | refl : Reaches ok n n
  | step {n₁ n₂ : Namespace} (a : NamespaceAction) (h : Reaches ok n n₁) (hok : ok n₁ a)
      (hs : n₁.step sha256 a = some n₂) : Reaches ok n n₂

end Namespace

end EliteEvents
