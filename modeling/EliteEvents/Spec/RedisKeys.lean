import EliteEvents.Lib.Text

/-! The Redis schema (`RedisKeys`): every key format, hash field and scan pattern, and
the name normalisation that goes with them. System names and carrier ids are upper-cased,
station names are kept verbatim, and no separator is ever escaped. -/

namespace EliteEvents

open Text

/-- No ASCII letter a-z. -/
def NoLower (s : Str) : Prop := ∀ u ∈ s, ¬ (97 ≤ u.toNat ∧ u.toNat ≤ 122)

instance (s : Str) : Decidable (NoLower s) := inferInstanceAs (Decidable (∀ u ∈ s, _))

/-- `String.ToUpperInvariant`, with the one fact about it the schema rests on. -/
structure Casing where
  toUpperInvariant : Str → Str
  noLower : ∀ s, NoLower (toUpperInvariant s)

/-- Upper-casing of ASCII text, which is all that most names of the feed are. -/
def asciiCasing : Casing where
  toUpperInvariant s := s.map fun u => if 97 ≤ u.toNat ∧ u.toNat ≤ 122 then u - 32 else u
  noLower := by
    intro s u hu
    obtain ⟨v, -, rfl⟩ := List.mem_map.mp hu
    split_ifs with h
    · have hsub : (v - 32).toNat = v.toNat - 32 := UInt16.toNat_sub_of_le _ _ (UInt16.le_iff_toNat_le.mpr (by
        show 32 ≤ v.toNat
        omega))
      omega
    · exact h

/-- `Char.IsWhiteSpace`. -/
def isWhiteSpace (u : UInt16) : Bool :=
  let n := u.toNat
  decide (9 ≤ n ∧ n ≤ 13) || decide (0x2000 ≤ n ∧ n ≤ 0x200A) ||
    decide (n ∈ [0x20, 0x85, 0xA0, 0x1680, 0x2028, 0x2029, 0x202F, 0x205F, 0x3000])

/-- `String.Trim`. -/
def stringTrim (s : Str) : Str := ((s.dropWhile isWhiteSpace).reverse.dropWhile isWhiteSpace).reverse

namespace RedisKeys

/-- 30 days, in milliseconds. -/
def dataExpiration : ℕ := 30 * 24 * 60 * 60 * 1000

def normalizeSystem (I : Casing) (systemName : Str) : Str := I.toUpperInvariant systemName
def normalizeCarrier (I : Casing) (carrierId : Str) : Str := I.toUpperInvariant carrierId

/-- Search input is trimmed too. -/
def normalizeQuery (I : Casing) (searchQuery : Str) : Str := stringTrim (I.toUpperInvariant searchQuery)

def station (normalizedSystem stationName : Str) : Str :=
  lit "system:" ++ (normalizedSystem ++ (lit ":station:" ++ stationName))

def systemStations (normalizedSystem : Str) : Str :=
  lit "system:" ++ (normalizedSystem ++ lit ":stations")

def stationCountField : Str := lit "count"
def stationTypeField : Str := lit "type"
def stationLastSeenField : Str := lit "last_seen"

def carrierDaily (normalizedCarrier date : Str) : Str :=
  lit "carrier:" ++ (normalizedCarrier ++ (lit ":daily:" ++ date))

def carrierDays (normalizedCarrier : Str) : Str :=
  lit "carrier:" ++ (normalizedCarrier ++ lit ":days")

def systemVisits : Str := lit "systems:visits"
def systemCountCache : Str := lit "cache:system:count"
def eddnHeartbeat : Str := lit "heartbeat:eddn"

/-- 5 seconds, in ticks. -/
def heartbeatWriteInterval : ℤ := 5 * 10000000
/-- 1 hour, in milliseconds. -/
def heartbeatExpiration : ℕ := 60 * 60 * 1000

def systemIndex : Str := lit "index:systems"
def carrierIndex : Str := lit "index:carriers"

/-- Every index member is stored at this score. -/
def indexScore : ℤ := 0

/-- Lower bound of a prefix lookup, inclusive: the prefix itself. -/
def lexPrefixMin (normalizedPrefix : Str) : List UInt8 := utf8 normalizedPrefix

/-- Upper bound, inclusive: the prefix and a byte that no UTF-8 text contains. -/
def lexPrefixMax (normalizedPrefix : Str) : List UInt8 := utf8 normalizedPrefix ++ [0xFF]

/-- The characters Redis honours in a MATCH pattern: `*`, `?`, `[`, `]` and the backslash. -/
def isGlobMeta (c : UInt16) : Bool := decide (c ∈ ([42, 63, 91, 93, 92] : List UInt16))

def escapeGlob (value : Str) : Str := value.flatMap fun c => if isGlobMeta c then [92, c] else [c]

def indexMatchPattern (normalizedQuery : Str) : Str := lit "*" ++ (escapeGlob normalizedQuery ++ lit "*")

def allSystemStationsPattern : Str := lit "system:*:stations"
def allCarrierDaysPattern : Str := lit "carrier:*:days"

def colon : UInt16 := 58

/-- `key.Split(':')[1]`, or null when there is no second part. -/
def extractName (key : Str) : Option Str := (key.splitOn colon)[1]?

end RedisKeys

/-- A name as it stands in a key, upper-cased. -/
structure UpperName where
  val : Str
  noLower : NoLower val
  deriving DecidableEq

def Casing.upper (I : Casing) (s : Str) : UpperName := ⟨I.toUpperInvariant s, I.noLower s⟩

/-- The logical entities of the schema, one constructor for each key builder. -/
inductive Entity
  | station (system : UpperName) (name : Str)
  | systemStations (system : UpperName)
  | carrierDaily (carrier : UpperName) (date : Str)
  | carrierDays (carrier : UpperName)
  | systemVisits
  | systemCountCache
  | eddnHeartbeat
  | systemIndex
  | carrierIndex

/-- The key an entity is stored under. -/
def Entity.key : Entity → Str
  | .station s x => RedisKeys.station s.val x
  | .systemStations s => RedisKeys.systemStations s.val
  | .carrierDaily c d => RedisKeys.carrierDaily c.val d
  | .carrierDays c => RedisKeys.carrierDays c.val
  | .systemVisits => RedisKeys.systemVisits
  | .systemCountCache => RedisKeys.systemCountCache
  | .eddnHeartbeat => RedisKeys.eddnHeartbeat
  | .systemIndex => RedisKeys.systemIndex
  | .carrierIndex => RedisKeys.carrierIndex

end EliteEvents
