import EliteEvents.Spec.Receiver
import EliteEvents.Spec.Resources

/-! The consumers of one feed at work. Each pod binds its shard from its environment
(`EddnOptions`), sees every frame of the broadcast, and sends the commands of the frames it
owns to the one Redis they share. Commands of different consumers interleave one by one; a
consumer takes its next frame once Redis has answered all commands of the last one. -/

namespace EliteEvents

open Text Redis

/-- The variables a container starts with: its own first, then those of its ConfigMap. -/
def containerEnv (c : Container) (configData : Labels) : Labels := c.env ++ configData

/-- Why a consumer does not come up. -/
inductive StartError
  | notAnInt (key : String)
  | shard (e : ArgumentOutOfRange)
  deriving DecidableEq

/-- `EddnOptions`, the two fields the shard filter is built from. -/
structure EddnOptions where
  shardIndex : Int32
  shardCount : Int32
  deriving DecidableEq

namespace EddnOptions

/-- The configuration binder on an `int` property, with the default of the class. -/
def bindInt (env : Labels) (key : String) (initial : Int32) : Except StartError Int32 :=
  match env.lookup key with
  | none => .ok initial
  | some raw =>
    match Decimal.parse (trimSpace raw.toList) with
    | none => .error (.notAnInt key)
    | some n => if -2 ^ 31 ≤ n ∧ n < 2 ^ 31 then .ok (Int32.ofInt n) else .error (.notAnInt key)

def ofEnv (env : Labels) : Except StartError EddnOptions := do
  let shardIndex ← bindInt env shardIndexEnvVar 0
  let shardCount ← bindInt env shardCountKey 1
  return ⟨shardIndex, shardCount⟩

end EddnOptions

/-- `AddEddnStream`: the filter is built at startup, so a bad shard stops the pod there. -/
def shardFilter (env : Labels) : Except StartError MessageShardFilter :=
  match EddnOptions.ofEnv env with
  | .error e => .error e
  | .ok options => (MessageShardFilter.create options.shardIndex options.shardCount).mapError .shard

/-- The environment of the pod of one shard, with the ConfigMap of the same spec. -/
def shardEnv (fl : FeedListener) (shard : ℕ) (configHash : String) : Labels :=
  containerEnv (buildShardDeployment fl shard configHash).template.spec.container
    (buildConfigData fl.spec)

/-- The clock readings of a loop turn that received a frame. -/
structure Clocks where
  arrival : ℕ
  batchBuilt : ℕ
  failure : ℕ

/-- A turn on which Redis answers everything. -/
def Clocks.turn (t : Clocks) : Turn where
  received := none
  arrival := t.arrival
  batchBuilt := t.batchBuilt
  failure := t.failure
  idle := 0
  reconnected := 0
  writer := fun _ => .ok ()
  heartbeatWrite := .ok ()

/-- One consumer: the frames it has yet to receive, and the commands it has yet to run. -/
structure Consumer where
  shard : MessageShardFilter
  state : ReceiverState
  inbox : List Str
  pending : List Cmd

/-- A consumer that has just come up and seeds the heartbeat. -/
def Consumer.start (I : Casing) (shard : MessageShardFilter) (start : ℕ) (frames : List Str) :
    Consumer :=
  let (s, seeded) := Receiver.startup start (Clocks.turn ⟨start, start, start⟩)
  ⟨shard, s, frames, seeded.flatMap (Effect.commands I)⟩

structure Ingestion (n : ℕ) where
  store : Store
  consumers : Fin n → Consumer

inductive IngestionAction (n : ℕ)
  | receive (k : Fin n) (t : Clocks)
  | command (k : Fin n) (now : Time)

/-- A deadline that has passed deletes its key. -/
def lapses (now : Time) : Cmd → Bool
  | .expireAt _ deadline => decide (deadline ≤ now)
  | _ => false

namespace Ingestion

variable {J : Type} {n : ℕ}

def start (I : Casing) (filters : Fin n → MessageShardFilter) (starts : Fin n → ℕ)
    (frames : List Str) (σ : Store) : Ingestion n :=
  ⟨σ, fun k => Consumer.start I (filters k) (starts k) frames⟩

/-- One step, on a server where every command succeeds and no key lapses. -/
def step (X : External J) (w : Ingestion n) : IngestionAction n → Option (Ingestion n)
  | .receive k t =>
    let c := w.consumers k
    match c.inbox, c.pending with
    | str :: rest, [] =>
      let (s, effects) := Receiver.onFrame X c.shard t.turn c.state str
      let c' := { c with state := s, inbox := rest, pending := effects.flatMap (Effect.commands X.casing) }
      some ⟨w.store, Function.update w.consumers k c'⟩
    | _, _ => none
  | .command k now =>
    let c := w.consumers k
    match c.pending with
    | [] => none
    | cmd :: rest =>
      if lapses now cmd then none
      else match cmd.run now w.store with
        | .error _ => none
        | .ok σ => some ⟨σ, Function.update w.consumers k { c with pending := rest }⟩

def run (X : External J) : List (IngestionAction n) → Ingestion n → Option (Ingestion n)
  | [], w => some w
  | a :: as, w => (w.step X a).bind (run X as)

/-- Every frame was processed, and every command has run. -/
def Done (w : Ingestion n) : Prop := ∀ k, (w.consumers k).inbox = [] ∧ (w.consumers k).pending = []

instance (w : Ingestion n) : Decidable w.Done := inferInstanceAs (Decidable (∀ _, _))

end Ingestion

end EliteEvents
