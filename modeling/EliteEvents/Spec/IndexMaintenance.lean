import EliteEvents.Spec.SearchIndex

/-! `RebuildAsync` where its calls may fail or its token be cancelled, and the two that run it for both indexes
in turn: the startup loop of `SearchIndexMaintenanceService` and the one-shot `RebuildCommand`. No other client
is at work and no key lapses. -/

namespace EliteEvents

open Text Redis

/-- What becomes of a call to the server. A failed write may have taken effect or not. -/
inductive Ending
  | done
  | cancelled
  | failed (applied : Bool)
  deriving DecidableEq

/-- How a rebuild that did not complete was left: `OperationCanceledException`, or another exception. -/
inductive Stop
  | cancelled
  | failed
  deriving DecidableEq

/-- One run of `RebuildAsync`, from outside: what the two scans deliver and how they end, and the ending of each
chunk of writes, where a chunk not listed is done. -/
structure Attempt where
  zscanned : List Str
  snapshot : Ending
  scanned : List Str
  scan : Ending
  chunks : List Ending

/-- Nothing fails and nobody cancels. -/
def Attempt.Uninterrupted (a : Attempt) : Prop :=
  a.snapshot = .done ∧ a.scan = .done ∧ ∀ f ∈ a.chunks, f = .done

namespace SearchIndexMaintainer

/-- The chunks, in order. The token is looked at before each one; what stops a chunk stops the rebuild. -/
def writeChunks (now : Time) : List Cmd → List Ending → Store → Store × Except Stop Unit
  | [], _, σ => (σ, .ok ())
  | c :: todo, endings, σ =>
    match endings.headD .done with
    | .done => writeChunks now todo endings.tail (c.apply now σ)
    | .cancelled => (σ, .error .cancelled)
    | .failed applied => (if applied then c.apply now σ else σ, .error .failed)

/-- `RebuildAsync`. -/
def rebuildAsync (κ : Catalog) (now : Time) (a : Attempt) (σ : Store) :
    Store × Except Stop IndexRebuildResult :=
  match a.snapshot, a.scan with
  | .cancelled, _ | .done, .cancelled => (σ, .error .cancelled)
  | .failed _, _ | .done, .failed _ => (σ, .error .failed)
  | .done, .done =>
    let indexed := a.zscanned.dedup
    let live := liveNames a.scanned
    let (σ', written) := writeChunks now (writes κ.index indexed live) a.chunks σ
    (σ', written.map fun _ => result indexed live)

/-- The system index, then the carrier index. -/
def rebuildBoth (now : Time) (systems carriers : Attempt) (σ : Store) :
    Store × Except Stop (IndexRebuildResult × IndexRebuildResult) :=
  match rebuildAsync .system now systems σ with
  | (σ₁, .error e) => (σ₁, .error e)
  | (σ₁, .ok r) =>
    match rebuildAsync .carrier now carriers σ₁ with
    | (σ₂, .error e) => (σ₂, .error e)
    | (σ₂, .ok r') => (σ₂, .ok (r, r'))

end SearchIndexMaintainer

/-- `SearchIndexMaintenanceService`: whether some pass got through. -/
structure MaintenanceService where
  store : Store
  hasSucceeded : Bool

/-- Its `RebuildAsync`: a failure is logged and swallowed, a cancellation goes on to the host. -/
def MaintenanceService.rebuildAsync (now : Time) (systems carriers : Attempt) (s : MaintenanceService) :
    MaintenanceService × Except Stop Unit :=
  match SearchIndexMaintainer.rebuildBoth now systems carriers s.store with
  | (σ, .ok _) => (⟨σ, true⟩, .ok ())
  | (σ, .error .cancelled) => (⟨σ, s.hasSucceeded⟩, .error .cancelled)
  | (σ, .error .failed) => (⟨σ, s.hasSucceeded⟩, .ok ())

/-- `RebuildCommand.RunAsync`: the exit code. -/
def runRebuildCommand (now : Time) (systems carriers : Attempt) (σ : Store) : Store × ℕ :=
  match SearchIndexMaintainer.rebuildBoth now systems carriers σ with
  | (σ', .ok _) => (σ', 0)
  | (σ', .error _) => (σ', 1)

end EliteEvents
