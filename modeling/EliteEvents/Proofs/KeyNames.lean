import EliteEvents.Spec.KeyFixer

/-! What `parse_key` reads of a key. An upper-case system name has no `s` in it, so that neither `:station:` nor
`:stations` can start inside it: a normalised key is read back as the parts it was made of, whatever the names hold. -/

namespace EliteEvents

open Regex Renaming

namespace KeyFixer

variable {U : StrUpper} {key name suffix : PyStr} {k : Key}

/-! Bytes and text. -/

theorem decode_encode (s : PyStr) : decode (encode s) = some s := by
  have : (encode s).toByteArray = s.utf8Encode := rfl
  rw [decode, this, List.utf8Decode?_utf8Encode]
  rfl

theorem encode_of_decode {s : PyStr} (h : decode k = some s) : encode s = k := by
  obtain ⟨a, ha, rfl⟩ := Option.map_eq_some_iff.mp h
  have hs : k.toByteArray.utf8Decode?.isSome = true := by rw [ha]; rfl
  have hget : k.toByteArray.utf8Decode?.get hs = a := Option.get_of_eq_some hs ha
  have henc := @ByteArray.utf8Encode_get_utf8Decode? k.toByteArray hs
  rw [hget] at henc
  have := congrArg (fun b : ByteArray => b.data.toList) henc
  rwa [List.utf8Encode, List.toList_data_toByteArray, List.toList_data_toByteArray] at this

theorem encode_injective {s t : PyStr} (h : encode s = encode t) : s = t := by
  have := decode_encode s
  rw [h, decode_encode] at this
  exact (Option.some.inj this).symm

theorem matchesPattern_iff : matchesPattern k = true ↔ encode "system:".toList <+: k := by
  have htokens : Text.globTokens (encode keyPattern).length (encode keyPattern) =
      (encode "system:".toList).map .byte ++ .star :: ([] : List UInt8).map .byte := by decide
  rw [matchesPattern, Text.glob]
  split_ifs with hk
  · rw [List.isEmpty_iff.mp hk]
    decide
  · rw [htokens, Text.globTokensMatch_around_star]
    simp only [List.append_nil]
    exact exists_congr fun m => eq_comm

/-! What the two patterns match. -/

/-- `station:` and a name in one line, or `stations`. -/
def IsSuffix (suffix : PyStr) : Prop :=
  suffix = "stations".toList ∨ ∃ x, x ≠ [] ∧ '\n' ∉ x ∧ suffix = "station:".toList ++ x

theorem mem_ways_station {gs : List (List Char)} : gs ∈ ways stationPattern key ↔
    ∃ w x z, gs = [w, x] ∧ w ≠ [] ∧ '\n' ∉ w ∧ x ≠ [] ∧ '\n' ∉ x ∧ (z = [] ∨ z = ['\n']) ∧
      key = "system:".toList ++ (w ++ (":station:".toList ++ (x ++ z))) := by
  simp only [stationPattern, mem_ways_lit, mem_ways_reluctant, mem_ways_greedy, mem_ways_dollar]
  constructor
  · rintro ⟨_, rfl, w, _, _, rfl, hw, hwn, rfl, _, rfl, x, z, _, rfl, hx, hxn, rfl, hz, rfl⟩
    exact ⟨w, x, z, rfl, hw, hwn, hx, hxn, hz, rfl⟩
  · rintro ⟨w, x, z, rfl, hw, hwn, hx, hxn, hz, rfl⟩
    exact ⟨_, rfl, w, _, _, rfl, hw, hwn, rfl, _, rfl, x, z, _, rfl, hx, hxn, rfl, hz, rfl⟩

theorem mem_ways_stations {gs : List (List Char)} : gs ∈ ways stationsPattern key ↔
    ∃ w z, gs = [w] ∧ w ≠ [] ∧ '\n' ∉ w ∧ (z = [] ∨ z = ['\n']) ∧
      key = "system:".toList ++ (w ++ (":stations".toList ++ z)) := by
  simp only [stationsPattern, mem_ways_lit, mem_ways_greedy, mem_ways_dollar]
  constructor
  · rintro ⟨_, rfl, w, _, _, rfl, hw, hwn, rfl, z, rfl, hz, rfl⟩
    exact ⟨w, z, rfl, hw, hwn, hz, rfl⟩
  · rintro ⟨w, z, rfl, hw, hwn, hz, rfl⟩
    exact ⟨_, rfl, w, _, _, rfl, hw, hwn, rfl, z, rfl, hz, rfl⟩

/-- Where the name and the suffix that are read stand in the key. -/
theorem parseKey_eq (h : parseKey key = some (name, suffix)) :
    name ≠ [] ∧ '\n' ∉ name ∧ IsSuffix suffix ∧
      ∃ z, (z = [] ∨ z = ['\n']) ∧ key = "system:".toList ++ (name ++ (':' :: (suffix ++ z))) := by
  unfold parseKey at h
  split at h
  · rename_i w x hc
    obtain ⟨rfl, rfl⟩ := Prod.mk.inj (Option.some.inj h)
    obtain ⟨w', x', z, hgs, hw, hwn, hx, hxn, hz, rfl⟩ := mem_ways_station.mp (captures_mem hc)
    obtain ⟨rfl, rfl⟩ : w = w' ∧ x = x' := by simpa using hgs
    exact ⟨hw, hwn, .inr ⟨x, hx, hxn, rfl⟩, z, hz, by simp⟩
  · split at h
    · rename_i w hc
      obtain ⟨rfl, rfl⟩ := Prod.mk.inj (Option.some.inj h)
      obtain ⟨w', z, hgs, hw, hwn, hz, rfl⟩ := mem_ways_stations.mp (captures_mem hc)
      obtain rfl : w = w' := by simpa using hgs
      exact ⟨hw, hwn, .inl rfl, z, hz, by simp⟩
    · cases h

/-! Reading a normalised key. -/

/-- A separator that starts with `:s` stands after a name without `s`, not in it. -/
theorem length_le_of_no_s {u w r t : List Char} (hu : 's' ∉ u) (h : u ++ ':' :: t = w ++ ':' :: 's' :: r) :
    u.length ≤ w.length := by
  rcases List.append_eq_append_iff.mp h with ⟨d, rfl, -⟩ | ⟨d, rfl, hd⟩
  · simp
  · rcases d with _ | ⟨c, _ | ⟨c', d⟩⟩
    · simp
    · simp at hd
    · simp only [List.cons_append, List.cons.injEq] at hd
      rw [← hd.2.1] at hu
      exact absurd (by simp) hu

theorem captures_station {u x : PyStr} (hu : u ≠ []) (hun : '\n' ∉ u) (hus : 's' ∉ u) (hx : x ≠ [])
    (hxn : '\n' ∉ x) :
    captures stationPattern ("system:".toList ++ (u ++ (":station:".toList ++ x))) = some [u, x] := by
  have hway : [u, x] ∈ ways stationPattern ("system:".toList ++ (u ++ (":station:".toList ++ x))) :=
    mem_ways_station.mpr ⟨u, x, [], rfl, hu, hun, hx, hxn, .inl rfl, by simp⟩
  cases hc : captures stationPattern ("system:".toList ++ (u ++ (":station:".toList ++ x))) with
  | none => exact absurd hway (captures_eq_none.mp hc _)
  | some gs =>
    obtain ⟨w, x', z, rfl, -, -, -, -, hz, hkey⟩ := mem_ways_station.mp (captures_mem hc)
    have hrest := List.append_cancel_left hkey
    -- the reluctant name is not longer than `u`, and no separator starts in `u`
    have hlen : u.length = w.length :=
      le_antisymm (length_le_of_no_s hus hrest) (captures_reluctant_le hc hway)
    obtain ⟨rfl, hsuffix⟩ := List.append_inj hrest hlen
    have hxz := List.append_cancel_left hsuffix
    rcases hz with rfl | rfl
    · rw [hxz, List.append_nil]
    · exact absurd (by rw [hxz]; simp) hxn

theorem captures_stations {u : PyStr} (hu : u ≠ []) (hun : '\n' ∉ u) :
    captures stationsPattern ("system:".toList ++ (u ++ ":stations".toList)) = some [u] := by
  have hway : [u] ∈ ways stationsPattern ("system:".toList ++ (u ++ ":stations".toList)) :=
    mem_ways_stations.mpr ⟨u, [], rfl, hu, hun, .inl rfl, by simp⟩
  cases hc : captures stationsPattern ("system:".toList ++ (u ++ ":stations".toList)) with
  | none => exact absurd hway (captures_eq_none.mp hc _)
  | some gs =>
    obtain ⟨w, z, rfl, -, -, hz, hkey⟩ := mem_ways_stations.mp (captures_mem hc)
    have hrest := List.append_cancel_left hkey
    rcases hz with rfl | rfl
    · rw [List.append_nil] at hrest
      rw [List.append_cancel_right hrest]
    · have hmem : '\n' ∈ u ++ ":stations".toList := by rw [hrest]; simp
      exact absurd hmem (by simp [hun])

theorem parseKey_stations {u : PyStr} (hu : u ≠ []) (hun : '\n' ∉ u)
    (hnone : captures stationPattern ("system:".toList ++ (u ++ ":stations".toList)) = none) :
    parseKey ("system:".toList ++ (u ++ ":stations".toList)) = some (u, "stations".toList) := by
  simp only [parseKey, hnone, captures_stations hu hun]

/-- A key made of an upper-case name and a suffix is read as these. -/
theorem parseKey_upper {u : PyStr} (hu : u ≠ []) (hun : '\n' ∉ u) (hus : 's' ∉ u) (hs : IsSuffix suffix) :
    parseKey ("system:".toList ++ (u ++ ':' :: suffix)) = some (u, suffix) := by
  rcases hs with rfl | ⟨x, hx, hxn, rfl⟩
  · refine parseKey_stations hu hun (captures_eq_none.mpr fun gs hgs => ?_)
    obtain ⟨w, x, z, -, -, -, hx, -, -, hkey⟩ := mem_ways_station.mp hgs
    have hrest := List.append_cancel_left hkey
    have hlen := length_le_of_no_s hus hrest
    have hlens := congrArg List.length hrest
    have := List.length_pos_of_ne_nil hx
    simp at hlens
    omega
  · have hc : captures stationPattern ("system:".toList ++ (u ++ ':' :: ("station:".toList ++ x))) = some [u, x] :=
      captures_station hu hun hus hx hxn
    simp only [parseKey, hc]

theorem captures_of_parseKey_station {x : PyStr} (h : parseKey key = some (name, "station:".toList ++ x)) :
    captures stationPattern key = some [name, x] := by
  unfold parseKey at h
  split at h
  · rename_i w y hc
    obtain ⟨rfl, hy⟩ := Prod.mk.inj (Option.some.inj h)
    rw [hc, List.append_cancel_left hy]
  · split at h
    · simp at h
    · cases h

/-- The system of a station's key is also the one read in the key of its stations: a separator inside the name would
have been the first one in the station's key too. -/
theorem parseKey_stations_of_station {x : PyStr}
    (h : parseKey ("system:".toList ++ (name ++ (":station:".toList ++ x))) = some (name, "station:".toList ++ x)) :
    parseKey ("system:".toList ++ (name ++ ":stations".toList)) = some (name, "stations".toList) := by
  obtain ⟨hname, hline, -⟩ := parseKey_eq h
  have hc := captures_of_parseKey_station h
  obtain ⟨_, _, _, hgs, -, -, -, hxn, -⟩ := mem_ways_station.mp (captures_mem hc)
  obtain ⟨-, rfl⟩ : name = _ ∧ x = _ := by simpa using hgs
  refine parseKey_stations hname hline (captures_eq_none.mpr fun gs hway => ?_)
  obtain ⟨w, x', z, -, hw, hwn, hx', -, -, hkey⟩ := mem_ways_station.mp hway
  have hrest := List.append_cancel_left hkey
  have hlen : w.length < name.length := by
    have hlens := congrArg List.length hrest
    have := List.length_pos_of_ne_nil hx'
    simp at hlens
    omega
  obtain ⟨d, rfl, hd⟩ : ∃ d, name = w ++ d ∧ ":station:".toList ++ (x' ++ z) = d ++ ":stations".toList := by
    rcases List.append_eq_append_iff.mp hrest with ⟨d, rfl, -⟩ | ⟨d, hd⟩
    · simp at hlen
    · exact ⟨d, hd⟩
  -- the separator ends before the last letter of `:stations`, so that it stands before `:station:` as well
  obtain ⟨r, hr⟩ : ":station:".toList <+: d ++ ":station".toList := by
    have hsep : ":station:".toList <+: d ++ ":stations".toList := ⟨_, hd⟩
    refine List.prefix_of_prefix_length_le hsep ⟨['s'], by simp⟩ ?_
    simp at hlen ⊢
    omega
  have hway' : [w, r ++ ':' :: x] ∈ ways stationPattern
      ("system:".toList ++ (w ++ d ++ (":station:".toList ++ x))) := by
    refine mem_ways_station.mpr ⟨w, r ++ ':' :: x, [], rfl, hw, hwn, by simp, ?_, .inl rfl, ?_⟩
    · have hrn : '\n' ∉ r := fun hmem => by
        have : '\n' ∈ d ++ ":station".toList := hr ▸ List.mem_append_right _ hmem
        simp at this
        exact hline (List.mem_append_right w this)
      simp [hrn, hxn]
    · have : d ++ (":station:".toList ++ x) = ":station:".toList ++ (r ++ ':' :: x) := by
        rw [← List.append_assoc ":station:".toList r, hr]
        simp
      rw [List.append_assoc, this, List.append_nil]
  have := captures_reluctant_le hc hway'
  omega

theorem no_s_upper (U : StrUpper) (s : PyStr) : 's' ∉ U.upper s := fun h => U.no_lower s 's' h ⟨by decide, by decide⟩

theorem create_eq (U : StrUpper) (name suffix : PyStr) :
    createNormalizedKey U name suffix = "system:".toList ++ (U.upper name ++ ':' :: suffix) := by
  unfold createNormalizedKey normalizeSystemName
  rw [List.append_assoc, List.append_assoc]
  rfl

/-- The new key of a key that is read is read as the same system and suffix. -/
theorem parseKey_create (U : StrUpper) (h : parseKey key = some (name, suffix)) :
    parseKey (createNormalizedKey U name suffix) = some (U.upper name, suffix) := by
  obtain ⟨hname, hline, hs, -⟩ := parseKey_eq h
  rw [create_eq]
  exact parseKey_upper (U.ne_nil name hname) (U.line_feed name hline) (no_s_upper U name) hs

/-- `parse_key` finds this system and suffix in the text of the key. -/
def ReadAs (k : Key) (name suffix : PyStr) : Prop :=
  ∃ key, decode k = some key ∧ parseKey key = some (name, suffix)

/-- The name that the migration has for a key. -/
def target (U : StrUpper) (k : Key) : Key :=
  match decode k with
  | none => k
  | some key =>
    match parseKey key with
    | none => k
    | some (name, suffix) => encode (createNormalizedKey U name suffix)

theorem ReadAs.target_eq (h : ReadAs k name suffix) (U : StrUpper) :
    target U k = encode (createNormalizedKey U name suffix) := by
  obtain ⟨key, hd, hp⟩ := h
  simp only [target, hd, hp]

theorem target_cases (U : StrUpper) (k : Key) :
    (∃ name suffix, ReadAs k name suffix ∧ target U k = encode (createNormalizedKey U name suffix)) ∨
      (∀ name suffix, ¬ReadAs k name suffix) ∧ target U k = k := by
  by_cases h : ∃ name suffix, ReadAs k name suffix
  · obtain ⟨name, suffix, h⟩ := h
    exact .inl ⟨name, suffix, h, h.target_eq U⟩
  · refine .inr ⟨fun name suffix hr => h ⟨name, suffix, hr⟩, ?_⟩
    unfold target
    split
    · rfl
    · split
      · rfl
      · rename_i hd _ _ _ hp
        exact absurd ⟨_, _, _, hd, hp⟩ h

theorem ReadAs.create (h : ReadAs k name suffix) (U : StrUpper) :
    ReadAs (encode (createNormalizedKey U name suffix)) (U.upper name) suffix := by
  obtain ⟨key, -, hp⟩ := h
  exact ⟨_, decode_encode _, parseKey_create U hp⟩

theorem ReadAs.unique {name' suffix' : PyStr} (h : ReadAs k name suffix) (h' : ReadAs k name' suffix') :
    name = name' ∧ suffix = suffix' := by
  obtain ⟨key, hd, hp⟩ := h
  obtain ⟨key', hd', hp'⟩ := h'
  obtain rfl := Option.some.inj (hd.symm.trans hd')
  exact Prod.mk.inj (Option.some.inj (hp.symm.trans hp'))

theorem ReadAs.matches (h : ReadAs k name suffix) : matchesPattern k = true := by
  obtain ⟨key, hd, hp⟩ := h
  obtain ⟨-, -, -, z, -, rfl⟩ := parseKey_eq hp
  rw [matchesPattern_iff, ← encode_of_decode hd]
  exact ⟨_, (Text.encode_append _ _).symm⟩

theorem create_upper (U : StrUpper) (name suffix : PyStr) :
    createNormalizedKey U (U.upper name) suffix = createNormalizedKey U name suffix := by
  unfold createNormalizedKey normalizeSystemName
  rw [U.idempotent]

/-- A key is renamed once: its new name is final. -/
theorem target_target (U : StrUpper) (k : Key) : target U (target U k) = target U k := by
  rcases target_cases U k with ⟨name, suffix, h, ht⟩ | ⟨-, ht⟩
  · rw [ht]
    exact ((h.create U).target_eq U).trans (congrArg encode (create_upper U name suffix))
  · rw [ht]
    exact ht

/-- Keys of one target are read as one suffix, of spellings of one system. -/
theorem ReadAs.spelling {k' : Key} (h : ReadAs k name suffix) (ht : target U k' = target U k) :
    ∃ name', ReadAs k' name' suffix ∧ U.upper name' = U.upper name := by
  have hk : ReadAs (target U k) (U.upper name) suffix := by
    rw [h.target_eq U]
    exact h.create U
  rcases target_cases U k' with ⟨name', suffix', h', ht'⟩ | ⟨hno, ht'⟩
  · have hk' := h'.create U
    rw [← ht', ht] at hk'
    obtain ⟨hname, rfl⟩ := hk'.unique hk
    exact ⟨name', h', hname⟩
  · rw [← ht', ht] at hno
    exact absurd hk (hno _ _)

end KeyFixer

end EliteEvents
