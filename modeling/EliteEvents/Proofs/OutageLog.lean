import EliteEvents.Proofs.Containment

/-! The log of an outage. While every write to Redis throws, the frames that a handler takes all fail; but a frame
that needs no Redis succeeds, resets the count of failures, and the next failure is logged as if it were the first.
So the throttle holds exactly along the frames among which no such frame comes after a failure. -/

namespace EliteEvents

open Text

/-- A line that `ProcessMessageAsync` logs, an error with the clock it was logged at. -/
inductive LogLine
  | error (clock failures : ℕ)
  | recovered (failures : ℕ)
  deriving DecidableEq

def logLine (t : Turn) : Effect → Option LogLine
  | .logError failures => some (.error t.failure failures)
  | .logRecovered failures => some (.recovered failures)
  | .handle _ | .write .. | .publish _ | .heartbeat _ | .reconnect => none

def LogLine.clock : LogLine → Option ℕ
  | .error clock _ => some clock
  | .recovered _ => none

namespace Receiver

variable {J : Type} (X : External J)

/-- What is logged while the frames are processed one after the other. -/
def log : ReceiverState → List (Turn × Str) → List LogLine
  | _, [] => []
  | s, (t, json) :: frames =>
    let r := processMessage X t s json
    r.2.filterMap (logLine t) ++ log r.1 frames

/-- The errors of a log are more than the interval apart, and it does not say that processing recovered. -/
def Throttled (lines : List LogLine) : Prop :=
  (lines.filterMap LogLine.clock).IsChain (fun a b => a + failureLogInterval < b) ∧
    ∀ failures, LogLine.recovered failures ∉ lines

/-- A frame that cannot be read, or that a handler takes. -/
def troubled (json : Str) : Bool :=
  match readMessage X json with
  | .error _ => true
  | .ok (some (.journal m)) => decide (m.event ∈ JournalMessageHandler.handles)
  | .ok (some .approachSettlement) => false
  | .ok none => false

section Frame

variable {X} {t : Turn} {s : ReceiverState} {json : Str}

theorem getMessageHandlers_eq (e : MessageEvent) :
    getMessageHandlers X t e = if e ∈ JournalMessageHandler.handles then [JournalMessageHandler.handle X t] else [] := by
  cases e <;> rfl

end Frame

section Period

/-- Once a frame has failed, in the period or just before it, all frames of the period fail. -/
def Unbroken (s : ReceiverState) (frames : List (Turn × Str)) : Prop :=
  (s.consecutiveFailures ≠ 0 → ∀ f ∈ frames, troubled X f.2 = true) ∧
    frames.Pairwise fun f g => troubled X f.2 = true → troubled X g.2 = true

variable {X}

end Period

section Loop

variable {X} {shard : MessageShardFilter} {silence : ℕ}

/-- The frame of a turn, if this shard processes it. -/
def ownedFrame (X : External J) (shard : MessageShardFilter) (t : Turn) : Option (Turn × Str) :=
  match receive X t.received with
  | .ok (some str) => if shard.owns str then some (t, str) else none
  | .ok none => none
  | .error _ => none

/-- What is logged depends on the throttle alone. -/
theorem log_congr {s s' : ReceiverState} (hc : s.consecutiveFailures = s'.consecutiveFailures)
    (hl : s.lastFailureLog = s'.lastFailureLog) (frames : List (Turn × Str)) : log X s frames = log X s' frames := by
  induction frames generalizing s s' with
  | nil => rfl
  | cons f frames ih =>
    obtain ⟨t, json⟩ := f
    have hstep : (processMessage X t s json).2 = (processMessage X t s' json).2 ∧
        (processMessage X t s json).1.consecutiveFailures = (processMessage X t s' json).1.consecutiveFailures ∧
        (processMessage X t s json).1.lastFailureLog = (processMessage X t s' json).1.lastFailureLog := by
      unfold processMessage
      rw [hc, hl]
      split
      · split_ifs
        · exact ⟨rfl, rfl, rfl⟩
        · exact ⟨rfl, hc, hl⟩
      · dsimp only
        split_ifs <;> exact ⟨rfl, rfl, rfl⟩
    rw [log, log, hstep.1, ih hstep.2.1 hstep.2.2]

theorem recordHeartbeat_log (t : Turn) (force : Bool) (s : ReceiverState) :
    (recordHeartbeat t force s).1.consecutiveFailures = s.consecutiveFailures ∧
      (recordHeartbeat t force s).1.lastFailureLog = s.lastFailureLog ∧
      (recordHeartbeat t force s).2.filterMap (logLine t) = [] := by
  unfold recordHeartbeat
  split_ifs
  · exact ⟨rfl, rfl, rfl⟩
  · dsimp only
    split <;> exact ⟨rfl, rfl, rfl⟩

theorem onFrame_log (t : Turn) (s : ReceiverState) (str : Str) (frames : List (Turn × Str)) :
    (onFrame X shard t s str).2.filterMap (logLine t) ++ log X (onFrame X shard t s str).1 frames =
      if shard.owns str then log X s ((t, str) :: frames) else log X s frames := by
  unfold onFrame
  dsimp only
  rw [List.filterMap_append, (recordHeartbeat_log t false _).2.2, List.append_nil]
  split_ifs
  · rw [log_congr (recordHeartbeat_log t false _).1 (recordHeartbeat_log t false _).2.1]
    exact @log_congr J X (recordHandled (recordMessage t s)) s rfl rfl ((t, str) :: frames)
  · exact @log_congr J X _ s (recordHeartbeat_log t false (recordMessage t s)).1
      (recordHeartbeat_log t false (recordMessage t s)).2.1 frames

/-- The log of a run is that of the frames the shard owns: what else the loop does is not logged so. -/
theorem loop_log {ts : List Turn} {s : ReceiverState} (h : (loop X shard silence ts s).escaped = none) :
    ((ts.zip (loop X shard silence ts s).turns).flatMap fun p => p.2.filterMap (logLine p.1)) =
      log X s (ts.filterMap (ownedFrame X shard)) := by
  induction ts generalizing s with
  | nil => rfl
  | cons t ts ih =>
    rw [List.filterMap_cons, ownedFrame]
    unfold loop turn at h ⊢
    cases hr : receive X t.received with
    | error e =>
      rw [hr] at h
      cases h
    | ok str =>
      rw [hr] at h
      cases str with
      | none =>
        dsimp only at h ⊢
        split_ifs at h ⊢
        · exact (ih h).trans (@log_congr J X { s with lastReconnect := t.reconnected } s rfl rfl _)
        · exact ih h
      | some str =>
        dsimp only at h ⊢
        rw [List.zip_cons_cons, List.flatMap_cons, ih h, onFrame_log]
        split_ifs <;> rfl

end Loop

section Sol

/-- A jump to Sol, and a market report, which no handler is for. -/
def jumpText : Str := lit "\x7b\"$schemaRef\":\"https://eddn.edcd.io/schemas/journal/1\"\x7d"
def marketText : Str := lit "\x7b\"$schemaRef\":\"https://eddn.edcd.io/schemas/commodity/3\"\x7d"

/-- The libraries on these frames. -/
def solExternal : External Bool where
  casing := asciiCasing
  uncompressBuffer _ := .error .zlib
  getString _ := []
  parse json := if json = jumpText then .ok true else if json = marketText then .ok false else .error .json
  schemaRef jump :=
    .ok (some (if jump then MessageFactory.journalSchema else lit "https://eddn.edcd.io/schemas/commodity/3"))
  toJournal _ := .ok (some ⟨⟨639028224300000000, 0, by decide⟩, .fsdJump, some (lit "Sol"), []⟩)
  toApproachSettlement _ := .error .conversion
  nextExpirationUtc _ := 1767252600000

/-- Redis is down in this turn; a failure would be logged at this second. -/
def downAt (second : ℕ) : Turn where
  received := none
  arrival := second * 10000000
  batchBuilt := second * 10000000
  failure := second * 10000000
  idle := second * 10000000
  reconnected := 0
  writer _ := .error .redis
  heartbeatWrite := .error .redis

end Sol

end Receiver

end EliteEvents
