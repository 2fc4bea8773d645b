import EliteEvents.Lib.PercentEncoding
import EliteEvents.Spec.DockingReader

/-! The two searches of the web tier, each as a full page and as the fragment that htmx swaps into it, and the
addresses that lead from a name to its page. -/

namespace EliteEvents

open Text Redis

namespace Uri

/-- The bytes `EscapeDataString` keeps: letters, digits, and `-._~`. -/
def isUnreserved (b : UInt8) : Bool :=
  let n := b.toNat
  decide (48 ≤ n ∧ n ≤ 57) || decide (65 ≤ n ∧ n ≤ 90) || decide (97 ≤ n ∧ n ≤ 122) || decide (n ∈ [45, 46, 95, 126])

/-- `Uri.EscapeDataString`. -/
def escapeDataString (s : Str) : Str := PercentEncoding.encode isUnreserved (utf8 s)

end Uri

/-- `UserMessages.DataUnavailable`. -/
def dataUnavailable : Str := lit "Can't reach the data feed right now. Try again in a moment."

/-- What one of the searches is told about. -/
structure Search where
  path : Str
  /-- the address of a result, up to its name -/
  details : Str
  minimumQueryLength : ℕ

structure Link where
  href : Str
  text : Str
  deriving DecidableEq

/-- The body of the results card. -/
inductive ResultsView
  | alert (errorMessage : Str)
  /-- nothing searched for yet -/
  | blank
  | noneFound (query : Str)
  | found (query : Str) (links : List Link)
  deriving DecidableEq

/-- What a request comes to: a results card, for htmx with the address to show, or another page. -/
inductive SearchResponse
  | results (view : ResultsView) (pushUrl : Option Str)
  | navigate (location : Str)
  deriving DecidableEq

namespace Search

variable (S : Search) (getMatching : Str → Except ReadError (List Str))

def link (name : Str) : Str := S.details ++ Uri.escapeDataString name

/-- The address of the page that searches for `query`. -/
def address (query : Str) : Str := S.path ++ (lit "?q=" ++ Uri.escapeDataString query)

def tooShort : Str :=
  lit "Please enter at least " ++ (Decimal.text S.minimumQueryLength ++ lit " characters to search.")

/-- The results component. -/
def view (query : Option Str) (names : Option (List Str)) (errorMessage : Option Str) : ResultsView :=
  match errorMessage with
  | some message => .alert message
  | none =>
    match query with
    | none => .blank
    | some q =>
      if q.all isWhiteSpace then .blank
      else
        match names with
        | none | some [] => .noneFound q
        | some names => .found q (names.map fun name => ⟨S.link name, name⟩)

/-- The page at `S.path`: `OnParametersSetAsync`, then the card with the query as it came. -/
def page (q : Option Str) : SearchResponse :=
  let query := (q.map stringTrim).getD []
  if query = [] then .results (S.view q none none) none
  else if query.length < S.minimumQueryLength then .results (S.view q none (some S.tooShort)) none
  else
    match getMatching query with
    | .error _ => .results (S.view q none (some dataUnavailable)) none
    | .ok [name] => .navigate (S.link name)
    | .ok names => .results (S.view q (some names) none) none

/-- The fragment endpoint, with its `HX-Push-Url` and its `HX-Redirect`. -/
def fragment (q : Option Str) : SearchResponse :=
  let query := (q.map stringTrim).getD []
  if query = [] then .results (S.view none none none) none
  else if query.length < S.minimumQueryLength then .results (S.view (some query) none (some S.tooShort)) none
  else
    match getMatching query with
    | .error _ => .results (S.view (some query) none (some dataUnavailable)) none
    | .ok [name] => .navigate (S.link name)
    | .ok names => .results (S.view (some query) (some names) none) (some (S.address query))

end Search

/-- `/system-search` and `/fragments/system-search`. -/
def systemSearch : Search := ⟨lit "/system-search", lit "/system/", 3⟩

namespace DockingReader

def defaultSearchLimit : ℤ := 200

/-- `SearchIndexAsync` on a server that answers. -/
def getMatching (I : Casing) (index : Str) (zscan : Str → List Str) (now : Time) (σ : Store) (searchQuery : Str) :
    Except ReadError (List Str) :=
  if searchQuery.all isWhiteSpace ∨ RedisKeys.normalizeQuery I searchQuery = [] then .ok []
  else
    match (σ.purge now).zset (wire index) with
    | .error e => .error (.redis e)
    | .ok z => .ok (searchIndex I z zscan searchQuery defaultSearchLimit)

def getMatchingSystems (I : Casing) : (Str → List Str) → Time → Store → Str → Except ReadError (List Str) :=
  getMatching I RedisKeys.systemIndex

def getMatchingCarriers (I : Casing) : (Str → List Str) → Time → Store → Str → Except ReadError (List Str) :=
  getMatching I RedisKeys.carrierIndex

end DockingReader

end EliteEvents
