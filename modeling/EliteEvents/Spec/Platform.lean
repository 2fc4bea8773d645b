import EliteEvents.Spec.Heartbeat
import EliteEvents.Spec.SearchIndex
import EliteEvents.Spec.WeeklyReset

/-! One server and everything in the repository that writes to it: the consumers' batches and heartbeats, index
rebuilds, the drain of a feed (`SearchIndexPurger`), and the web tier, whose pages keep the system count in a key
of their own (`CachedSystemCount`). Every client runs command by command, in any interleaving. -/

namespace EliteEvents

open Text Redis

namespace RedisKeys

/-- 60 seconds, in milliseconds. -/
def systemCountCacheDuration : ℕ := 60 * 1000

/-- Real data keys, without `cache:*`. -/
def dataKeyPatterns : List Str := [lit "system:*", lit "carrier:*"]

end RedisKeys

namespace SearchIndexPurger

def keys : List Str := [RedisKeys.systemIndex, RedisKeys.carrierIndex, RedisKeys.eddnHeartbeat]

/-- The DEL of `PurgeAsync`. -/
def command : Cmd := (Cmd.del keys).encode

end SearchIndexPurger

/-- The data-presence probe of `RedisHealthCheck.CheckHealthAsync`, on a server that answers: some key matches
one of the patterns. -/
def checkRedis (σ : Store) : HealthStatus :=
  if RedisKeys.dataKeyPatterns.any fun pattern => σ.keys.any fun k => globMatch pattern k then .healthy
  else .unhealthy

/-- A client's job, with what it was given. -/
inductive ClientJob
  | record (call : WriterCall)
  | heartbeat (unixMilliseconds : ℤ)
  /-- the writes of a rebuild, whatever its two scans returned -/
  | rebuild (κ : Catalog) (indexed live : List Str)
  | purge

/-- The commands of a job that starts at `now`. -/
def ClientJob.commands (I : Casing) (now : Time) : ClientJob → List Cmd
  | .record call => DockingWriter.batch I (WeeklyExpirationCalculator.getNextExpirationUtc now) call
  | .heartbeat ms => [StreamHeartbeat.command ms]
  | .rebuild κ indexed live => SearchIndexMaintainer.writes κ.index indexed live
  | .purge => [SearchIndexPurger.command]

namespace CachedSystemCount

/-- The GET: a value that is there is the answer. -/
def cached (σ : Store) : Option (Except ReadError ℤ) :=
  match σ.val (wire RedisKeys.systemCountCache) with
  | none => none
  | some (.str value) => some (parseInt 64 value)
  | some _ => some (.error (.redis .wrongType))

/-- The ZCARD of `CalculateActualCountAsync`. -/
def calculateActualCount (σ : Store) : Except ReadError ℕ :=
  match σ.zset (wire RedisKeys.systemIndex) with
  | .ok z => .ok z.entries.length
  | .error e => .error (.redis e)

/-- The SET of a count that was calculated. -/
def command (count : ℕ) : Cmd :=
  (Cmd.set RedisKeys.systemCountCache (Decimal.text count) (some RedisKeys.systemCountCacheDuration)).encode

end CachedSystemCount

/-- Where a call of `GetSystemCountAsync` stands: before its GET, before its ZCARD, or before its SET, with the
times of those behind it. -/
inductive PageView
  | asking
  | counting (got : Time)
  | storing (got counted : Time) (count : ℕ)
  deriving DecidableEq

/-- A call that returned or threw: when it sent its GET, and what came of it. -/
structure Served where
  got : Time
  returned : Time
  answer : Except ReadError ℤ

/-- The server with what is in flight. Time passes in steps of its own, which drop the keys that lapse. `sizes`
are the sizes the system index has had, with the time of each, newest first. -/
structure Platform where
  now : Time
  store : Store
  jobs : List (List Cmd)
  views : List PageView
  sizes : List (Time × ℕ)
  served : List Served

inductive PlatformAction
  | tick (t : Time)
  | submit (j : ClientJob)
  /-- the next command of a job -/
  | command (i : ℕ)
  /-- a connection fails: the rest of a job is never sent -/
  | cut (i : ℕ)
  /-- a page asks for the count -/
  | view
  | get (i : ℕ)
  | count (i : ℕ)
  /-- the SET takes effect; its reply may be lost -/
  | store (i : ℕ) (replied : Bool)
  /-- a call to Redis fails, and the page with it -/
  | fail (i : ℕ)

/-- What the web tier does. -/
def PlatformAction.isWeb : PlatformAction → Bool
  | .tick _ | .submit _ | .command _ | .cut _ => false
  | .view | .get _ | .count _ | .store _ _ | .fail _ => true

namespace Platform

def indexSize (σ : Store) : ℕ := (σ.zmembers (wire RedisKeys.systemIndex)).length

def initial (now : Time) : Platform := ⟨now, ∅, [], [], [(now, 0)], []⟩

/-- The server after a command, with the size of the index then. -/
def setStore (w : Platform) (σ : Store) : Platform :=
  { w with store := σ, sizes := (w.now, indexSize σ) :: w.sizes }

def finish (w : Platform) (i : ℕ) (got : Time) (answer : Except ReadError ℤ) : Platform :=
  { w with views := w.views.eraseIdx i, served := ⟨got, w.now, answer⟩ :: w.served }

def step (I : Casing) (w : Platform) : PlatformAction → Option Platform
  | .tick t => if w.now ≤ t then some ({ w with now := t }.setStore (w.store.purge t)) else none
  | .submit j => some { w with jobs := w.jobs ++ [j.commands I w.now] }
  | .command i =>
    match w.jobs[i]? with
    | some (c :: rest) => some ({ w with jobs := w.jobs.set i rest }.setStore (c.apply w.now w.store))
    | _ => none
  | .cut i => if i < w.jobs.length then some { w with jobs := w.jobs.eraseIdx i } else none
  | .view => some { w with views := w.views ++ [.asking] }
  | .get i =>
    match w.views[i]? with
    | some .asking =>
      match CachedSystemCount.cached w.store with
      | none => some { w with views := w.views.set i (.counting w.now) }
      | some answer => some (w.finish i w.now answer)
    | _ => none
  | .count i =>
    match w.views[i]? with
    | some (.counting got) =>
      match CachedSystemCount.calculateActualCount w.store with
      | .ok n => some { w with views := w.views.set i (.storing got w.now n) }
      | .error e => some (w.finish i got (.error e))
    | _ => none
  | .store i replied =>
    match w.views[i]? with
    | some (.storing got _ n) =>
      let w' := w.setStore ((CachedSystemCount.command n).apply w.now w.store)
      some (if replied then w'.finish i got (.ok n) else { w' with views := w'.views.eraseIdx i })
    | _ => none
  | .fail i => if i < w.views.length then some { w with views := w.views.eraseIdx i } else none

def run (I : Casing) : List PlatformAction → Platform → Option Platform
  | [], w => some w
  | a :: as, w => (w.step I a).bind (run I as)

/-- Nothing is in flight. -/
def Quiet (w : Platform) : Prop := ∀ cs ∈ w.jobs, cs = []

end Platform

end EliteEvents
