import EliteEvents.Spec.DockingWriter

/-! The reset of the visit counts (`WeeklyExpirationCalculator`): the cron line `30 7 * * 4` in UTC, that is
every Thursday at 07:30. -/

namespace EliteEvents

open Text Redis

namespace WeeklyExpirationCalculator

/-- A week, in milliseconds. -/
def week : ℕ := 7 * 24 * 60 * 60 * 1000

/-- The first reset of the Unix epoch, whose first day was a Thursday. -/
def firstReset : ℕ := (7 * 60 + 30) * 60 * 1000

/-- The number of resets up to and including `t`. -/
def weekOf (t : ℕ) : ℕ := (t + (week - firstReset)) / week

/-- The first reset strictly after the argument. -/
def getNextExpirationUtc (utcNow : ℕ) : ℕ := weekOf utcNow * week + firstReset

end WeeklyExpirationCalculator

/-- A call of `RecordSystemVisitAsync`: the client's clock when the batch was built, and the server's when it
ran. -/
structure Visit where
  created : Time
  now : Time
  systemName : Str

/-- The member a visit counts, as it reads back. -/
def Visit.member (I : Casing) (v : Visit) : Str := wire (RedisKeys.normalizeSystem I v.systemName)

/-- The batch of a visit, run as a unit. -/
def visit (I : Casing) (σ : Store) (v : Visit) : Store :=
  execAll v.now (DockingWriter.batch I (WeeklyExpirationCalculator.getNextExpirationUtc v.created)
    (.systemVisit v.systemName)) σ

def visitAll (I : Casing) (visits : List Visit) (σ : Store) : Store := visits.foldl (visit I) σ

/-- A batch under way: the client's clock when it was built, and the number of its commands that the server
has run. -/
structure VisitFlight where
  created : Time
  systemName : Str
  sent : ℕ
  deriving DecidableEq

def VisitFlight.rest (I : Casing) (f : VisitFlight) : List Cmd :=
  (DockingWriter.batch I (WeeklyExpirationCalculator.getNextExpirationUtc f.created)
    (.systemVisit f.systemName)).drop f.sent

/-- A server and the batches of any number of consumers. `counted` are the visits whose ZINCRBY has run: when,
and for which member. Time passes in steps of its own, which drop the key when it lapses. -/
structure VisitWorld where
  now : Time
  store : Store
  flights : List VisitFlight
  counted : List (Time × Str)

inductive VisitAction
  | tick (t : Time)
  | submit (systemName : Str)
  | command (i : ℕ)
  deriving DecidableEq

namespace VisitWorld

def initial (now : Time) : VisitWorld := ⟨now, ∅, [], []⟩

/-- The visit a command counts. -/
def counts (now : Time) : Cmd → List (Time × Str)
  | .zincrby _ _ m => [(now, m)]
  | _ => []

def step (I : Casing) (w : VisitWorld) : VisitAction → Option VisitWorld
  | .tick t => if w.now ≤ t then some { w with now := t, store := w.store.purge t } else none
  | .submit systemName => some { w with flights := w.flights ++ [⟨w.now, systemName, 0⟩] }
  | .command i => do
    let f ← w.flights[i]?
    let c ← (f.rest I).head?
    return { w with store := c.apply w.now w.store,
                    flights := w.flights.set i { f with sent := f.sent + 1 },
                    counted := counts w.now c ++ w.counted }

end VisitWorld

end EliteEvents
