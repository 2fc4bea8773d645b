import EliteEvents.Spec.WebSearch
import EliteEvents.Proofs.Calendar

/-! What the web tier makes of the reader's results: the JSON API, the leaderboard panel and the two detail pages.
Whatever a read throws becomes a 503 of the API and a line of text on a page. -/

namespace EliteEvents

open Text Redis

namespace FragmentDefaults

def leaderboardSize : ℤ := 25
def apiLeaderboardDefaultLimit : ℤ := 25
def apiLeaderboardMaxLimit : ℤ := 100

end FragmentDefaults

namespace DockingReader

/-- The rows of `GetSystemVisitsAsync` for a caller that does not say. -/
def defaultTopN : ℤ := 100

/-- The days of `GetCarrierDockingAsync` for a caller that does not say. -/
def defaultDaysBack : ℤ := 30

end DockingReader

structure VisitedSystem where
  system : Str
  visits : ℤ
  deriving DecidableEq

structure StationDocking where
  station : Str
  type : Str
  count : ℤ
  /-- Unix seconds -/
  lastSeen : ℤ
  deriving DecidableEq

structure CarrierDay where
  /-- yyyy-MM-dd -/
  date : Str
  dockings : ℤ
  deriving DecidableEq

structure SystemResponse where
  system : Str
  stations : List StationDocking
  deriving DecidableEq

structure CarrierResponse where
  carrier : Str
  days : List CarrierDay
  deriving DecidableEq

/-- 200 with a body, or 503 with `redis unavailable`. -/
inductive ApiResponse (α : Type)
  | ok (body : α)
  | unavailable
  deriving DecidableEq

/-- The handlers' `try`: what is read becomes a body, and what is thrown a 503. -/
def ApiResponse.ofRead {α β : Type} (body : α → β) : Except ReadError α → ApiResponse β
  | .ok a => .ok (body a)
  | .error _ => .unavailable

namespace ApiEndpoints

/-- The rows a `?limit=` asks for. -/
def leaderboardLimit (limit : Option ℤ) : ℤ :=
  min (match limit with
    | some n => if 0 < n then n else FragmentDefaults.apiLeaderboardDefaultLimit
    | none => FragmentDefaults.apiLeaderboardDefaultLimit) FragmentDefaults.apiLeaderboardMaxLimit

/-- `/api/most-visited`. -/
def mostVisited (limit : Option ℤ) (now : Time) (σ : Store) : ApiResponse (List VisitedSystem) :=
  .ofRead (fun systems => systems.map fun s => ⟨s.systemName, s.visitCount⟩)
    (DockingReader.getSystemVisits (leaderboardLimit limit) now σ)

/-- The station as the API names it, of a type that is never empty. -/
def stationDocking (s : StationDockingInfo) : StationDocking where
  station := s.stationName
  type := if s.stationType = [] then lit "Unknown" else s.stationType
  count := s.dockingCount
  lastSeen := s.lastSeen

/-- `/api/system/{name}`. -/
def system (I : Casing) (name : Str) (now : Time) (σ : Store) : ApiResponse SystemResponse :=
  .ofRead (fun stations => ⟨RedisKeys.normalizeSystem I name, stations.map stationDocking⟩)
    (DockingReader.getSystemDocking I name now σ)

def carrierDay (d : CarrierDockingInfo) : CarrierDay := ⟨dateText d.date, d.dockingCount⟩

/-- `/api/carrier/{id}`. -/
def carrier (I : Casing) (id : Str) (now : Time) (σ : Store) : ApiResponse CarrierResponse :=
  .ofRead (fun days => ⟨RedisKeys.normalizeCarrier I id, days.map carrierDay⟩)
    (DockingReader.getCarrierDocking I id DockingReader.defaultDaysBack now σ)

end ApiEndpoints

/-- A row of the leaderboard: its rank, the system with the address of its page, and the visits. -/
structure LeaderboardRow where
  rank : ℕ
  system : Link
  visits : ℤ
  deriving DecidableEq

/-- The most-visited panel. -/
inductive LeaderboardTable
  | message (text : Str)
  | rows (systems : List LeaderboardRow)
  deriving DecidableEq

namespace LeaderboardTable

/-- The rows with their ranks counted up. -/
def ranked : ℕ → List SystemVisitInfo → List LeaderboardRow
  | _, [] => []
  | rank, s :: rest =>
    ⟨rank, ⟨systemSearch.link s.systemName, s.systemName⟩, s.visitCount⟩ :: ranked (rank + 1) rest

/-- The component, from a read of its parent. -/
def ofRead : Except ReadError (List SystemVisitInfo) → LeaderboardTable
  | .error _ => .message dataUnavailable
  | .ok [] => .message (lit "No visits recorded yet.")
  | .ok systems => .rows (ranked 1 systems)

/-- The panel of the home page, which `/fragments/leaderboard` refreshes. -/
def home (now : Time) (σ : Store) : LeaderboardTable :=
  ofRead (DockingReader.getSystemVisits FragmentDefaults.leaderboardSize now σ)

/-- The table of `/most-visited`. -/
def mostVisited (now : Time) (σ : Store) : LeaderboardTable :=
  ofRead (DockingReader.getSystemVisits DockingReader.defaultTopN now σ)

end LeaderboardTable

end EliteEvents
