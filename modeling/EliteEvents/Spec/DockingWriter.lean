import EliteEvents.Lib.Redis
import EliteEvents.Spec.RedisKeys

/-! The write side of the schema (`DockingWriter`): each recorded event is one batch of
pipelined commands. A batch is not a transaction, so the commands of different writers
may interleave; within a batch they run in order. -/

namespace EliteEvents

open Text Redis

/-- Ticks of `DateTimeOffset.MaxValue`. -/
def maxTicks : ℕ := 3155378975999999999

/-- A `DateTimeOffset`: the instant in 100 ns ticks since 0001-01-01 UTC, and the offset of
its wall clock in minutes. -/
structure DateTimeOffset where
  utcTicks : ℕ
  offsetMinutes : ℤ
  utcTicks_le : utcTicks ≤ maxTicks := by decide
  deriving DecidableEq

namespace DateTimeOffset

/-- `DateTimeOffset.MinValue`. -/
def minValue : DateTimeOffset := ⟨0, 0, by decide⟩

def ticksPerSecond : ℕ := 10000000
def unixEpochSeconds : ℤ := 62135596800

def toUnixTimeSeconds (t : DateTimeOffset) : ℤ := (t.utcTicks / ticksPerSecond : ℕ) - unixEpochSeconds

/-- Milliseconds of the Unix epoch, from ticks. -/
def unixMilliseconds (utcTicks : ℕ) : ℤ := (utcTicks / 10000 : ℕ) - unixEpochSeconds * 1000

/-- Day number of the wall clock, day 0 being 0001-01-01. -/
def day (t : DateTimeOffset) : ℕ :=
  ((t.utcTicks : ℤ) + t.offsetMinutes * 60 * ticksPerSecond).toNat / (ticksPerSecond * 86400)

/-- Year, month and day of the Gregorian calendar. The count starts on 1 March of year 0, so
that leap days come last. -/
def civil (day : ℕ) : ℕ × ℕ × ℕ :=
  let z := day + 306
  let era := z / 146097
  let doe := z % 146097
  let yoe := (doe - doe / 1460 + doe / 36524 - doe / 146096) / 365
  let doy := doe - (365 * yoe + yoe / 4 - yoe / 100)
  let mp := (5 * doy + 2) / 153
  let d := doy - (153 * mp + 2) / 5 + 1
  let m := if mp < 10 then mp + 3 else mp - 9
  (yoe + era * 400 + (if m ≤ 2 then 1 else 0), m, d)

/-- A number with leading zeros. -/
def padded (width n : ℕ) : List Char :=
  let digits := Nat.toDigits 10 n
  List.replicate (width - digits.length) '0' ++ digits

/-- `ToString("yyyy-MM-dd")`, on the wall clock of the value. -/
def date (t : DateTimeOffset) : Str :=
  let (y, m, d) := civil t.day
  ofChars (padded 4 y ++ '-' :: padded 2 m ++ '-' :: padded 2 d)

end DateTimeOffset

/-- The calls of `IDockingWriter`. -/
inductive WriterCall
  | fleetCarrierDocking (carrierId : Str) (utcTimestamp : DateTimeOffset)
  | stationDocking (systemName stationName stationType : Str) (utcTimestamp : DateTimeOffset)
  | systemVisit (systemName : Str)
  deriving DecidableEq

namespace DockingWriter

open RedisKeys

def recordFleetCarrierDocking (I : Casing) (carrierId : Str) (utcTimestamp : DateTimeOffset) :
    List Cmd :=
  let carrier := normalizeCarrier I carrierId
  let today := utcTimestamp.date
  let timestamp := utcTimestamp.toUnixTimeSeconds
  let carrierKey := carrierDaily carrier today
  let carrierDaysKey := carrierDays carrier
  [ .incr carrierKey,
    .expire carrierKey dataExpiration,
    .zadd carrierDaysKey [(today, timestamp)],
    .expire carrierDaysKey dataExpiration,
    .zadd carrierIndex [(carrier, indexScore)] ]

def recordStationDocking (I : Casing) (systemName stationName stationType : Str)
    (utcTimestamp : DateTimeOffset) : List Cmd :=
  let system := normalizeSystem I systemName
  let timestamp := utcTimestamp.toUnixTimeSeconds
  let stationKey := station system stationName
  let systemStationsKey := systemStations system
  [ .hincrby stationKey stationCountField 1,
    .hset stationKey [(stationTypeField, stationType),
      (stationLastSeenField, Decimal.text timestamp)],
    .expire stationKey dataExpiration,
    .zadd systemStationsKey [(stationName, timestamp)],
    .expire systemStationsKey dataExpiration,
    .zadd systemIndex [(system, indexScore)] ]

/-- `nextExpiration` is `WeeklyExpirationCalculator.GetNextExpirationUtc` of the client clock
when the batch is built. -/
def recordSystemVisit (I : Casing) (systemName : Str) (nextExpiration : Time) : List Cmd :=
  let system := normalizeSystem I systemName
  [ .zincrby systemVisits 1 system,
    .expireAt systemVisits nextExpiration ]

/-- The batch of a call, as it leaves the client. -/
def batch (I : Casing) (nextExpiration : Time) : WriterCall → List Cmd
  | .fleetCarrierDocking c t => (recordFleetCarrierDocking I c t).map Cmd.encode
  | .stationDocking s x y t => (recordStationDocking I s x y t).map Cmd.encode
  | .systemVisit s => (recordSystemVisit I s nextExpiration).map Cmd.encode

end DockingWriter

/-- A writer call with the two clocks it depends on: the client's, for the expiry of the visit
counts, and the server's. -/
structure Recording where
  call : WriterCall
  nextExpiration : Time
  now : Time

def Recording.commands (I : Casing) (r : Recording) : List (Time × Cmd) :=
  (DockingWriter.batch I r.nextExpiration r.call).map fun c => (r.now, c)

/-- The calls one after the other, on a server where no key lapses. -/
def recordAll (I : Casing) (calls : List Recording) (σ : Store) : Store :=
  applyAll (calls.flatMap (Recording.commands I)) σ

end EliteEvents
