import EliteEvents.Spec.DockingWriter

/-! The read side of the schema (`DockingReader`): the stations of a system and the days of a
carrier, from a sorted set and one key for each member, where a member whose key is gone is skipped;
the leaderboard of visits; and the search of a name index. -/

namespace EliteEvents

open Text Redis

/-- What a read can throw. -/
inductive ReadError
  | redis (e : Redis.Error)
  | format
  | overflow
  | outOfRange
  deriving DecidableEq

structure StationDockingInfo where
  systemName : Str
  stationName : Str
  stationType : Str
  dockingCount : ℤ
  lastSeen : ℤ
  deriving DecidableEq

structure CarrierDockingInfo where
  carrierId : Str
  /-- day number, day 0 being 0001-01-01 -/
  date : ℕ
  dockingCount : ℤ
  deriving DecidableEq

structure SystemVisitInfo where
  systemName : Str
  visitCount : ℤ
  deriving DecidableEq

/-- `int.Parse` and `long.Parse` of text without white space, at the width of the type. -/
def parseInt (bits : ℕ) (s : Str) : Except ReadError ℤ :=
  match Decimal.ofText s with
  | none => .error .format
  | some n => if -2 ^ (bits - 1) ≤ n ∧ n < 2 ^ (bits - 1) then .ok n else .error .overflow

/-- `DateTimeOffset.FromUnixTimeSeconds`, as whole seconds: years 1 to 9999. -/
def fromUnixTimeSeconds (n : ℤ) : Except ReadError ℤ :=
  if -62135596800 ≤ n ∧ n ≤ 253402300799 then .ok n else .error .outOfRange

/-- The day number of a date of the Gregorian calendar, counted from 1 March of year 0. -/
def dayOfCivil (y m d : ℕ) : ℕ :=
  let y' := if m ≤ 2 then y - 1 else y
  let mp := if m ≤ 2 then m + 9 else m - 3
  let doe := y' % 400 * 365 + y' % 400 / 4 - y' % 400 / 100 + ((153 * mp + 2) / 5 + d - 1)
  y' / 400 * 146097 + doe - 306

/-- `DateTime.Parse` of a date `yyyy-MM-dd`, as a day number. -/
def parseDate (s : Str) : Except ReadError ℕ :=
  match ((scalars s).splitOn '-').mapM Decimal.parseNat with
  | some [y, m, d] =>
    if DateTimeOffset.civil (dayOfCivil y m d) = (y, m, d) then .ok (dayOfCivil y m d) else .error .format
  | _ => .error .format

namespace DockingReader

open RedisKeys

/-- One row of the result, or none if the hash is gone. -/
def stationRow (system : Str) (σ : Store) (stationName : Str) :
    Except ReadError (Option StationDockingInfo) :=
  match σ.hash (wire (station system stationName)) with
  | .error e => .error (.redis e)
  | .ok data =>
    if data.entries.isEmpty then .ok none
    else do
      let count ← parseInt 32 ((data.lookup stationCountField).getD (lit "0"))
      let seen ← parseInt 64 ((data.lookup stationLastSeenField).getD (lit "0"))
      let lastSeen ← fromUnixTimeSeconds seen
      return some
        { systemName := system
          stationName := stationName
          stationType := (data.lookup stationTypeField).getD []
          dockingCount := count
          lastSeen := lastSeen }

/-- The loop over the members; the first exception ends it. -/
def stationRows (system : Str) (σ : Store) : List Str → Except ReadError (List StationDockingInfo)
  | [] => .ok []
  | stationName :: rest => do
    let row ← stationRow system σ stationName
    let rows ← stationRows system σ rest
    return row.toList ++ rows

/-- `GetSystemDockingAsync` at server time `now`. -/
def getSystemDocking (I : Casing) (systemName : Str) (now : Time) (σ : Store) :
    Except ReadError (List StationDockingInfo) :=
  let system := normalizeSystem I systemName
  match (σ.purge now).zset (wire (systemStations system)) with
  | .error e => .error (.redis e)
  | .ok z => stationRows system (σ.purge now) ((zrevrange z).map Prod.fst)

/-- One row of the result, or none if the counter is gone. -/
def carrierRow (carrier : Str) (σ : Store) (day : Str) : Except ReadError (Option CarrierDockingInfo) :=
  match σ.val (wire (carrierDaily carrier day)) with
  | none => .ok none
  | some (.str dockingCount) => do
    let date ← parseDate day
    let count ← parseInt 32 dockingCount
    return some { carrierId := carrier, date := date, dockingCount := count }
  | some _ => .error (.redis .wrongType)

def carrierRows (carrier : Str) (σ : Store) : List Str → Except ReadError (List CarrierDockingInfo)
  | [] => .ok []
  | day :: rest => do
    let row ← carrierRow carrier σ day
    let rows ← carrierRows carrier σ rest
    return row.toList ++ rows

/-- The `take` of a range: LIMIT with a negative count is no limit. -/
def limited {α : Type} (take : ℤ) (l : List α) : List α := if take < 0 then l else l.take take.toNat

/-- `GetCarrierDockingAsync` at server time `now`. -/
def getCarrierDocking (I : Casing) (carrierId : Str) (daysBack : ℤ) (now : Time) (σ : Store) :
    Except ReadError (List CarrierDockingInfo) :=
  let carrier := normalizeCarrier I carrierId
  match (σ.purge now).zset (wire (carrierDays carrier)) with
  | .error e => .error (.redis e)
  | .ok z => carrierRows carrier (σ.purge now) ((limited daysBack (zrevrange z)).map Prod.fst)

/-- A system with a single visit is noise: the exclusive lower bound of the leaderboard. -/
def leaderboardScoreFloor : ℤ := 1

/-- `GetSystemVisitsAsync` at server time `now`. -/
def getSystemVisits (topN : ℤ) (now : Time) (σ : Store) : Except ReadError (List SystemVisitInfo) :=
  if topN ≤ 0 then .ok []
  else
    match (σ.purge now).zset (wire systemVisits) with
    | .error e => .error (.redis e)
    | .ok z => .ok ((zrevrangeByScore leaderboardScoreFloor topN.toNat z).map fun entry => ⟨entry.1, entry.2⟩)

/-- The most names the substring pass collects. -/
def substringScanCeiling : ℕ := 5000

/-- The loop over the prefix matches: each name once, with the set of names seen. -/
def distinct : List Str → List Str → List Str → List Str × List Str
  | [], seen, results => (seen, results)
  | name :: rest, seen, results =>
    if name ∈ seen then distinct rest seen results else distinct rest (name :: seen) (results ++ [name])

/-- The loop over what ZSCAN delivers: each name not seen yet, up to the ceiling. -/
def collect : List Str → List Str → List Str → List Str
  | [], _, substringMatches => substringMatches
  | name :: rest, seen, substringMatches =>
    if name ∈ seen then
      if substringScanCeiling ≤ substringMatches.length then substringMatches
      else collect rest seen substringMatches
    else if substringScanCeiling ≤ (substringMatches ++ [name]).length then substringMatches ++ [name]
    else collect rest (name :: seen) (substringMatches ++ [name])

/-- `SearchIndexAsync` on an index, from what ZSCAN delivers for a pattern. -/
def searchIndex (I : Casing) (z : ZSet) (zscan : Str → List Str) (searchQuery : Str) (limit : ℤ) : List Str :=
  if searchQuery.all isWhiteSpace || decide (limit ≤ 0) then []
  else
    let query := normalizeQuery I searchQuery
    if query = [] then []
    else
      let prefixMatches := zrangeByLex (lexPrefixMin query) (lexPrefixMax query) limit.toNat z
      let (seen, results) := distinct prefixMatches [] []
      if limit.toNat ≤ results.length then results
      else
        let substringMatches := collect (zscan (indexMatchPattern query)) seen []
        results ++ (substringMatches.mergeSort fun a b => decide (a ≤ b)).take (limit.toNat - results.length)

end DockingReader

end EliteEvents
