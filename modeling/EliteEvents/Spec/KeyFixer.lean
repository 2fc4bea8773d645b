import EliteEvents.Lib.Utf8
import EliteEvents.Lib.Regex
import EliteEvents.Lib.Renaming

/-! `redis_key_fixer.py`: the one-off migration of the station keys to upper-case system names. Keys are the bytes Redis
holds; the client is opened with `decode_responses`, so the script sees the text they decode to, and a page of SCAN
with a key that is no text raises. -/

namespace EliteEvents

open Regex Renaming

namespace KeyFixer

abbrev Key := List UInt8

/-- Python's `str`, as the client decodes it. -/
abbrev PyStr := List Char

/-- `bytes.decode('utf-8')`; none is `UnicodeDecodeError`. -/
def decode (k : Key) : Option PyStr := k.toByteArray.utf8Decode?.map Array.toList

/-- `str.encode('utf-8')` -/
def encode (s : PyStr) : Key := Text.encode s

/-- `KEY_PATTERN` -/
def keyPattern : PyStr := "system:*".toList

/-- What SCAN checks of a key. -/
def matchesPattern (k : Key) : Bool := Text.glob (encode keyPattern) k

/-- `str.upper`, by what it leaves: no ASCII lower-case letter, and upper-case text as it is. It converts characters, so
it drops none and makes no line feed. -/
structure StrUpper where
  upper : PyStr → PyStr
  no_lower : ∀ s, ∀ c ∈ upper s, ¬('a' ≤ c ∧ c ≤ 'z')
  idempotent : ∀ s, upper (upper s) = upper s
  ne_nil : ∀ s, s ≠ [] → upper s ≠ []
  line_feed : ∀ s, '\n' ∉ s → '\n' ∉ upper s

theorem toUpper_cases (c : Char) :
    c.toUpper = c ∧ ¬('a' ≤ c ∧ c ≤ 'z') ∨ 'A' ≤ c.toUpper ∧ c.toUpper ≤ 'Z' := by
  unfold Char.toUpper
  split_ifs with h
  · right
    have h₁ : 97 ≤ c.val.toNat := h.1
    have h₂ : c.val.toNat ≤ 122 := h.2
    have hval : (c.val + ('A'.val - 'a'.val)).toNat = c.val.toNat - 32 := by
      have hoffset : ('A'.val - 'a'.val).toNat = 2 ^ 32 - 32 := by decide
      rw [UInt32.toNat_add, hoffset]
      omega
    constructor
    · change 65 ≤ (c.val + ('A'.val - 'a'.val)).toNat
      omega
    · change (c.val + ('A'.val - 'a'.val)).toNat ≤ 90
      omega
  · exact .inl ⟨rfl, h⟩

theorem not_lower_toUpper (c : Char) : ¬('a' ≤ c.toUpper ∧ c.toUpper ≤ 'z') := by
  rcases toUpper_cases c with ⟨hc, hl⟩ | ⟨-, hz⟩
  · rwa [hc]
  · exact fun h => absurd (h.1.trans hz) (by decide)

/-- `str.upper` on ASCII text. -/
def StrUpper.ascii : StrUpper where
  upper s := s.map Char.toUpper
  no_lower s c hc := by
    obtain ⟨d, -, rfl⟩ := List.mem_map.mp hc
    exact not_lower_toUpper d
  idempotent s := by
    rw [List.map_map]
    exact List.map_congr_left fun c _ => dif_neg (not_lower_toUpper c)
  ne_nil s := by simp
  line_feed s hs hc := by
    obtain ⟨d, hd, hup⟩ := List.mem_map.mp hc
    rcases toUpper_cases d with ⟨h, -⟩ | ⟨h, -⟩
    · exact hs (h.symm.trans hup ▸ hd)
    · exact absurd (hup ▸ h) (by decide)

variable (U : StrUpper)

def normalizeSystemName (systemName : PyStr) : PyStr := U.upper systemName

/-- `^system:(.+?):station:(.+)$` -/
def stationPattern : List Item :=
  [.lit "system:".toList, .reluctant, .lit ":station:".toList, .greedy, .dollar]

/-- `^system:(.+):stations$` -/
def stationsPattern : List Item :=
  [.lit "system:".toList, .greedy, .lit ":stations".toList, .dollar]

/-- The system name and the suffix of a key. -/
def parseKey (key : PyStr) : Option (PyStr × PyStr) :=
  match captures stationPattern key with
  | some [name, station] => some (name, "station:".toList ++ station)
  | _ =>
    match captures stationsPattern key with
    | some [name] => some (name, "stations".toList)
    | _ => none

def createNormalizedKey (systemName suffix : PyStr) : PyStr :=
  "system:".toList ++ normalizeSystemName U systemName ++ ":".toList ++ suffix

/-- The loop's variables, with the keyspace it works on. -/
structure Migration (V : Type) where
  store : Keyspace Key V
  processed : ℕ
  migrated : ℕ
  skipped : ℕ
  errors : ℕ

variable {V : Type} (dryRun : Bool)

/-- One key of a page. -/
def migrateKey (m : Migration V) (key : PyStr) : Migration V :=
  let m := { m with processed := m.processed + 1 }
  match parseKey key with
  | none => { m with errors := m.errors + 1 }
  | some (systemName, suffix) =>
    if systemName.isEmpty || suffix.isEmpty then { m with errors := m.errors + 1 }
    else
      let newKey := createNormalizedKey U systemName suffix
      if key = newKey then { m with skipped := m.skipped + 1 }
      else if dryRun then { m with migrated := m.migrated + 1 }
      else if encode newKey ∈ m.store then { m with errors := m.errors + 1 }
      else
        match rename m.store (encode key) (encode newKey) with
        -- the `RedisError` of a key that is gone
        | none => { m with errors := m.errors + 1 }
        | some store => { m with store := store, migrated := m.migrated + 1 }

/-- The pages of SCAN one after the other, and whether the loop came to their end: a page that does not decode raises
out of it. -/
def migratePages : List (List Key) → Migration V → Migration V × Bool
  | [], m => (m, true)
  | page :: pages, m =>
    match page.mapM decode with
    | none => (m, false)
    | some keys => migratePages pages (keys.foldl (migrateKey U dryRun) m)

def migrateKeys (σ : Keyspace Key V) (pages : List (List Key)) : Migration V × Bool :=
  migratePages U dryRun pages ⟨σ, 0, 0, 0, 0⟩

/-- The keyspace when SCAN has returned these pages and the script has worked through them. -/
def storeAfter (σ : Keyspace Key V) (pages : List (List Key)) : Keyspace Key V :=
  (migrateKeys U dryRun σ pages).1.store

/-- The key is in the keyspace from the first call of SCAN to the end of the loop, after every key that the script
works on. -/
def Throughout (σ : Keyspace Key V) (pages : List (List Key)) (k : Key) : Prop :=
  k ∈ σ ∧ ∀ before page after keys rest, pages = before ++ page :: after → page.mapM decode = some (keys ++ rest) →
    k ∈ (keys.foldl (migrateKey U dryRun) (migrateKeys U dryRun σ before).1).store

/-- What SCAN guarantees while the script, and nobody else, writes to the keyspace: what it returns matches the pattern
and has been there at this call or an earlier one, any number of times; and what matches and is there throughout is
returned. -/
structure Scans (σ : Keyspace Key V) (pages : List (List Key)) : Prop where
  returned : ∀ before page after, pages = before ++ page :: after → ∀ k ∈ page,
    matchesPattern k = true ∧ ∃ earlier, earlier <+: before ∧ k ∈ storeAfter U dryRun σ earlier
  complete : ∀ k, matchesPattern k = true → Throughout U dryRun σ pages k → k ∈ pages.flatten

end KeyFixer

end EliteEvents
