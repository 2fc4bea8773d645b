import EliteEvents.Proofs.KeyMigration

/-! The stations of a system after the migration. The hashes of all spellings come together under the upper-case name,
but of their sets only one can: a spelling whose set finds the name taken keeps it, and its stations stay listed
there. -/

namespace EliteEvents

open Regex Renaming

namespace KeyFixer

/-- What a key holds. -/
inductive Value
  | hash (fields : List (Key × Key))
  | set (members : List Key)
  /-- any other type, as DUMP serialises it -/
  | other (dump : Key)
  deriving DecidableEq

variable {U : StrUpper} {σ : Keyspace Key Value} {pages : List (List Key)}

def stationText (name station : PyStr) : PyStr :=
  "system:".toList ++ (name ++ (":station:".toList ++ station))

def stationsText (name : PyStr) : PyStr := "system:".toList ++ (name ++ ":stations".toList)

/-- The station has a hash under this spelling of its system. -/
def HasHash (σ : Keyspace Key Value) (name station : PyStr) : Prop :=
  ∃ fields, σ.lookup (encode (stationText name station)) = some (.hash fields)

/-- The set of this spelling lists the station. -/
def Lists (σ : Keyspace Key Value) (name station : PyStr) : Prop :=
  ∃ members, σ.lookup (encode (stationsText name)) = some (.set members) ∧ encode station ∈ members

/-- Each station hash is listed. -/
def Filed (σ : Keyspace Key Value) : Prop := ∀ name station, HasHash σ name station → Lists σ name station

/-- What a key that is read holds is at its target after a run that comes to its end, or it is where it was, and what
another spelling held is there. -/
theorem target_holds (hscan : Scans U false σ pages) (hdone : (migrateKeys U false σ pages).2 = true) {k : Key}
    {name suffix : PyStr} {v : Value} (hr : ReadAs k name suffix) (hk : σ.lookup k = some v) :
    (storeAfter U false σ pages).lookup (target U k) = some v ∨
      (storeAfter U false σ pages).lookup k = some v ∧
        ∃ j name' w, j ≠ k ∧ ReadAs j name' suffix ∧ U.upper name' = U.upper name ∧ σ.lookup j = some w ∧
          (storeAfter U false σ pages).lookup (target U k) = some w := by
  obtain ⟨f, hf, hrel⟩ := visits_relabelled (target_target U) σ (worked pages)
  rw [← storeAfter_eq] at hrel
  have hs := hscan.settled (decoded_of_completes hdone)
  rcases hrel.target_lookup (target_target U) hf hs hk with h | ⟨h, j, w, hjk, ht, hj, hw⟩
  · exact .inl h
  · obtain ⟨name', hr', hup⟩ := hr.spelling ht
    exact .inr ⟨h, j, name', w, hjk, hr', hup, hj, hw⟩

/-- After a run that comes to its end, a station that was listed with a hash under the spelling `name`, as `parse_key`
reads its key, has at the upper-case key what the key of one of the spellings held: a hash, if all of them held one. It
is listed under the upper-case name, unless another spelling's set is there: then its own set has kept key and
members. -/
theorem migration_keeps_stations (U : StrUpper) (σ : Keyspace Key Value) (pages : List (List Key))
    (hscan : Scans U false σ pages) (hdone : (migrateKeys U false σ pages).2 = true) (name station : PyStr)
    (hread : parseKey (stationText name station) = some (name, "station:".toList ++ station))
    (hhash : HasHash σ name station) (hlisted : Lists σ name station) :
    (∃ k name' v, ReadAs k name' ("station:".toList ++ station) ∧ U.upper name' = U.upper name ∧
        σ.lookup k = some v ∧
        (storeAfter U false σ pages).lookup (encode (stationText (U.upper name) station)) = some v) ∧
      ((∀ k name' v, ReadAs k name' ("station:".toList ++ station) → U.upper name' = U.upper name →
          σ.lookup k = some v → ∃ fields, v = .hash fields) →
        HasHash (storeAfter U false σ pages) (U.upper name) station) ∧
      (Lists (storeAfter U false σ pages) (U.upper name) station ∨
        Lists (storeAfter U false σ pages) name station ∧
          ∃ k name' v, k ≠ encode (stationsText name) ∧ ReadAs k name' "stations".toList ∧
            U.upper name' = U.upper name ∧ σ.lookup k = some v ∧
            (storeAfter U false σ pages).lookup (encode (stationsText (U.upper name))) = some v) := by
  obtain ⟨fields, hfields⟩ := hhash
  obtain ⟨members, hmembers, hmem⟩ := hlisted
  have hr : ReadAs (encode (stationText name station)) name ("station:".toList ++ station) :=
    ⟨_, decode_encode _, hread⟩
  have hr' : ReadAs (encode (stationsText name)) name "stations".toList :=
    ⟨_, decode_encode _, parseKey_stations_of_station hread⟩
  have ht : target U (encode (stationText name station)) = encode (stationText (U.upper name) station) := by
    rw [hr.target_eq U, create_eq]
    rfl
  have ht' : target U (encode (stationsText name)) = encode (stationsText (U.upper name)) := by
    rw [hr'.target_eq U, create_eq]
    rfl
  have held : ∃ k name' v, ReadAs k name' ("station:".toList ++ station) ∧ U.upper name' = U.upper name ∧
      σ.lookup k = some v ∧
      (storeAfter U false σ pages).lookup (encode (stationText (U.upper name) station)) = some v := by
    rcases target_holds hscan hdone hr hfields with h | ⟨-, j, name', w, -, hj, hup, hjw, hw⟩
    · exact ⟨_, name, _, hr, rfl, hfields, ht ▸ h⟩
    · exact ⟨j, name', w, hj, hup, hjw, ht ▸ hw⟩
  refine ⟨held, fun hhashes => ?_, ?_⟩
  · obtain ⟨k, name', v, hk, hup, hkv, hv⟩ := held
    obtain ⟨fields', rfl⟩ := hhashes k name' v hk hup hkv
    exact ⟨fields', hv⟩
  · rcases target_holds hscan hdone hr' hmembers with h | ⟨h, j, name', w, hne, hj, hup, hjw, hw⟩
    · exact .inl ⟨members, ht' ▸ h, hmem⟩
    · exact .inr ⟨⟨members, h, hmem⟩, j, name', w, hne, hj, hup, hjw, ht' ▸ hw⟩

/-- The names in the text of a station's key end where its separator stands. -/
theorem names_of_text {name station text : PyStr}
    (h : encode (stationText name station) = encode ("system:".toList ++ text)) :
    ∃ n ≤ text.length, ":station:".toList <+: text.drop n ∧ name = text.take n ∧
      station = (text.drop n).drop ":station:".toList.length := by
  obtain rfl := List.append_cancel_left (encode_injective h)
  exact ⟨name.length, by simp, by simp, by simp, by simp⟩

def oneVisit : List (Key × Key) := [(encode "count".toList, encode "1".toList)]

/-- Two spellings of one system, each with a set of its own. -/
def twoSpellings : Keyspace Key Value where
  entries := [⟨encode "system:SOL:stations".toList, .set [encode "B".toList]⟩,
    ⟨encode "system:SOL:station:B".toList, .hash oneVisit⟩,
    ⟨encode "system:Sol:stations".toList, .set [encode "A".toList]⟩,
    ⟨encode "system:Sol:station:A".toList, .hash oneVisit⟩]
  nodupKeys := by
    change List.Nodup _
    decide

/-- A system whose name has the separator in it. -/
def innerSeparator : Keyspace Key Value where
  entries := [⟨encode "system:a:stations".toList, .set [encode "b:station:c".toList]⟩,
    ⟨encode "system:a:station:b:stations".toList, .set [encode "c".toList]⟩,
    ⟨encode "system:a:station:b:station:c".toList, .hash oneVisit⟩]
  nodupKeys := by
    change List.Nodup _
    decide

theorem filed_twoSpellings : Filed twoSpellings := by
  rintro name station ⟨fields, h⟩
  have hmem := AList.mem_lookup_iff.mp h
  simp only [twoSpellings, List.mem_cons, Sigma.mk.injEq, heq_eq_eq, reduceCtorEq, and_false, false_or,
    List.not_mem_nil, or_false] at hmem
  rcases hmem with ⟨hkey, -⟩ | ⟨hkey, -⟩
  · obtain ⟨n, hn, hsep, rfl, rfl⟩ := @names_of_text name station "SOL:station:B".toList hkey
    have only : ∀ n ≤ "SOL:station:B".toList.length, ":station:".toList <+: "SOL:station:B".toList.drop n → n = 3 := by
      decide
    obtain rfl := only n hn hsep
    exact ⟨[encode "B".toList], by decide, by decide⟩
  · obtain ⟨n, hn, hsep, rfl, rfl⟩ := @names_of_text name station "Sol:station:A".toList hkey
    have only : ∀ n ≤ "Sol:station:A".toList.length, ":station:".toList <+: "Sol:station:A".toList.drop n → n = 3 := by
      decide
    obtain rfl := only n hn hsep
    exact ⟨[encode "A".toList], by decide, by decide⟩

theorem filed_innerSeparator : Filed innerSeparator := by
  rintro name station ⟨fields, h⟩
  have hmem := AList.mem_lookup_iff.mp h
  simp only [innerSeparator, List.mem_cons, Sigma.mk.injEq, heq_eq_eq, reduceCtorEq, and_false, false_or,
    List.not_mem_nil, or_false] at hmem
  obtain ⟨n, hn, hsep, rfl, rfl⟩ := @names_of_text name station "a:station:b:station:c".toList hmem.1
  have only : ∀ n ≤ "a:station:b:station:c".toList.length,
      ":station:".toList <+: "a:station:b:station:c".toList.drop n → n = 1 ∨ n = 11 := by
    decide
  rcases only n hn hsep with rfl | rfl
  · exact ⟨[encode "b:station:c".toList], by decide, by decide⟩
  · exact ⟨[encode "c".toList], by decide, by decide⟩

/-- All the keys in one page. -/
theorem scans_keys (h : ∀ k ∈ σ.keys, matchesPattern k = true) : Scans U false σ [σ.keys] :=
  scans_page fun k => ⟨fun hk => ⟨hk, h k hk⟩, fun hk => hk.1⟩

theorem migration_keeps_stations_sol :
    Lists twoSpellings "Sol".toList "A".toList ∧
      ∃ v, (storeAfter .ascii false twoSpellings [twoSpellings.keys]).lookup
        (encode (stationText (StrUpper.ascii.upper "Sol".toList) "A".toList)) = some v := by
  have hlisted : Lists twoSpellings "Sol".toList "A".toList := ⟨[encode "A".toList], by decide, by decide⟩
  obtain ⟨-, -, v, -, -, -, hv⟩ := (migration_keeps_stations .ascii twoSpellings [twoSpellings.keys]
    (scans_keys (by decide)) (by decide) "Sol".toList "A".toList (by decide) ⟨oneVisit, by decide⟩ hlisted).1
  exact ⟨hlisted, v, hv⟩

/-- The hash of a station moves to the upper-case name while the set that lists it does not; and of a system whose name
has the separator in it, only the part before it is upper-cased. -/
theorem spellings_hide_stations :
    (Filed twoSpellings ∧ Scans .ascii false twoSpellings [twoSpellings.keys] ∧
        (migrateKeys .ascii false twoSpellings [twoSpellings.keys]).2 = true ∧
        HasHash twoSpellings "Sol".toList "A".toList ∧
        ¬Lists (storeAfter .ascii false twoSpellings [twoSpellings.keys])
          (StrUpper.ascii.upper "Sol".toList) "A".toList) ∧
      Filed innerSeparator ∧ Scans .ascii false innerSeparator [innerSeparator.keys] ∧
        (migrateKeys .ascii false innerSeparator [innerSeparator.keys]).2 = true ∧
        HasHash innerSeparator "a:station:b".toList "c".toList ∧
        ¬HasHash (storeAfter .ascii false innerSeparator [innerSeparator.keys])
          (StrUpper.ascii.upper "a:station:b".toList) "c".toList := by
  refine ⟨⟨filed_twoSpellings, scans_keys (by decide), by decide, ⟨oneVisit, by decide⟩, ?_⟩, filed_innerSeparator,
    scans_keys (by decide), by decide, ⟨oneVisit, by decide⟩, ?_⟩
  · rintro ⟨members, h, hmem⟩
    have hset : (storeAfter .ascii false twoSpellings [twoSpellings.keys]).lookup
        (encode (stationsText (StrUpper.ascii.upper "Sol".toList))) = some (.set [encode "B".toList]) := by decide
    obtain rfl := Value.set.inj (Option.some.inj (hset.symm.trans h))
    exact absurd hmem (by decide)
  · rintro ⟨fields, h⟩
    have hnone : (storeAfter .ascii false innerSeparator [innerSeparator.keys]).lookup
        (encode (stationText (StrUpper.ascii.upper "a:station:b".toList) "c".toList)) = none := by decide
    rw [hnone] at h
    cases h

end KeyFixer

end EliteEvents
