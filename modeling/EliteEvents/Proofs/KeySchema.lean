import EliteEvents.Spec.RedisKeys

/-! The key schema is jointly injective. Separators are not escaped and names are free
text, so a name may itself contain `:` or `:STATION:`; what keeps the keys apart is that
an upper-cased name cannot contain the lower-case letter that follows a tag's colon. -/

namespace EliteEvents

open Text RedisKeys

theorem UpperName.ext_val {s s' : UpperName} (h : s.val = s'.val) : s = s' := by
  cases s; cases s'; simpa using h

/-- Two upper-cased fields, each followed by a colon and a lower-case tag. -/
private theorem tagged_unique {l l' : UInt16} {r r' : Str} (hl : 97 ≤ l.toNat ∧ l.toNat ≤ 122)
    (hl' : 97 ≤ l'.toNat ∧ l'.toNat ≤ 122) (s s' : UpperName)
    (h : s.val ++ colon :: l :: r = s'.val ++ colon :: l' :: r') :
    s = s' ∧ l = l' ∧ r = r' := by
  obtain ⟨e, h'⟩ := field_unique (P := fun u : UInt16 => ¬ (97 ≤ u.toNat ∧ u.toNat ≤ 122))
    (not_not.mpr hl) (not_not.mpr hl') (by decide) s.noLower s'.noLower h
  exact ⟨UpperName.ext_val e, h'⟩

theorem station_inj {s s' : UpperName} {x x' : Str} (h : station s.val x = station s'.val x') :
    s = s' ∧ x = x' := by
  obtain ⟨e, -, hr⟩ := tagged_unique (by decide) (by decide) s s' (List.append_cancel_left h)
  exact ⟨e, List.append_cancel_left (show lit "tation:" ++ x = lit "tation:" ++ x' from hr)⟩

theorem systemStations_inj {s s' : UpperName} (h : systemStations s.val = systemStations s'.val) :
    s = s' :=
  (tagged_unique (by decide) (by decide) s s' (List.append_cancel_left h)).1

theorem station_ne_systemStations {s s' : UpperName} {x : Str} :
    station s.val x ≠ systemStations s'.val := by
  intro h
  obtain ⟨-, -, hr⟩ := tagged_unique (by decide) (by decide) s s' (List.append_cancel_left h)
  have hc : colon :: x = lit "s" :=
    List.append_cancel_left (show lit "tation" ++ colon :: x = lit "tation" ++ lit "s" from hr)
  exact absurd (List.cons.inj hc).1 (by decide)

theorem carrierDaily_inj {c c' : UpperName} {d d' : Str}
    (h : carrierDaily c.val d = carrierDaily c'.val d') : c = c' ∧ d = d' := by
  obtain ⟨e, -, hr⟩ := tagged_unique (by decide) (by decide) c c' (List.append_cancel_left h)
  exact ⟨e, List.append_cancel_left (show lit "aily:" ++ d = lit "aily:" ++ d' from hr)⟩

theorem carrierDays_inj {c c' : UpperName} (h : carrierDays c.val = carrierDays c'.val) : c = c' :=
  (tagged_unique (by decide) (by decide) c c' (List.append_cancel_left h)).1

theorem carrierDaily_ne_carrierDays {c c' : UpperName} {d : Str} :
    carrierDaily c.val d ≠ carrierDays c'.val := by
  intro h
  obtain ⟨-, -, hr⟩ := tagged_unique (by decide) (by decide) c c' (List.append_cancel_left h)
  have hc : lit "ily:" ++ d = lit "ys" :=
    List.append_cancel_left (show lit "a" ++ (lit "ily:" ++ d) = lit "a" ++ lit "ys" from hr)
  exact absurd (List.cons.inj hc).1 (by decide)

/-- The first seven letters of a key, before any free text. -/
def Entity.tag : Entity → Str
  | .station _ _ | .systemStations _ => lit "system:"
  | .carrierDaily _ _ | .carrierDays _ => lit "carrier"
  | .systemVisits => lit "systems"
  | .systemCountCache => lit "cache:s"
  | .eddnHeartbeat => lit "heartbe"
  | .systemIndex => lit "index:s"
  | .carrierIndex => lit "index:c"

theorem key_take (e : Entity) : e.key.take 7 = e.tag := by
  cases e <;> rfl

/-- No two logical entities share a key: same key, same builder and same arguments. -/
theorem entity_key_injective : Function.Injective Entity.key := by
  intro e e' h
  have ht : e.tag = e'.tag := by rw [← key_take, ← key_take, h]
  -- pairs with different tags are excluded by `ht`; eight pairs share one
  cases e <;> cases e' <;> simp only [Entity.tag] at ht <;>
    first | rfl | exact absurd ht (by decide) | skip
  case station.station s x s' x' =>
    obtain ⟨rfl, rfl⟩ := station_inj h
    rfl
  case station.systemStations s x s' => exact absurd h station_ne_systemStations
  case systemStations.station s s' x' => exact absurd h.symm station_ne_systemStations
  case systemStations.systemStations s s' => rw [systemStations_inj h]
  case carrierDaily.carrierDaily c d c' d' =>
    obtain ⟨rfl, rfl⟩ := carrierDaily_inj h
    rfl
  case carrierDaily.carrierDays c d c' => exact absurd h carrierDaily_ne_carrierDays
  case carrierDays.carrierDaily c c' d' => exact absurd h.symm carrierDaily_ne_carrierDays
  case carrierDays.carrierDays c c' => rw [carrierDays_inj h]

end EliteEvents
