import EliteEvents.Lib.TimeSpan
import EliteEvents.Spec.Resources

/-! A duration of the resource on its way to a consumer: the controller writes it as hours, minutes and
seconds, and the options binder reads a `TimeSpan`. From 24 hours on the reader takes the hours for days. -/

namespace EliteEvents

open TimeSpan

/-- A number with two digits at least is read back. -/
theorem parseNat_pad2 (n : ℕ) : Decimal.parseNat (pad2 n).toList = some n := by
  have hrepr : (toString n).toList = Nat.toDigits 10 n := Nat.toList_repr
  unfold pad2
  split_ifs with h
  · rw [String.toList_append, hrepr]
    interval_cases n <;> decide
  · rw [hrepr, Decimal.parseNat_toDigits]

theorem parse_aspNetDuration (d : ℕ) :
    parse (aspNetDuration d).toList =
      (ofParts 0 (d / 1000000000 / 3600) (d / 1000000000 % 3600 / 60) (d / 1000000000 % 60) <|>
        ofParts (d / 1000000000 / 3600) (d / 1000000000 % 3600 / 60) (d / 1000000000 % 60) 0) := by
  rw [← parse_triple (parseNat_pad2 _) (parseNat_pad2 _) (parseNat_pad2 _)]
  simp only [aspNetDuration, Int.toNat_natCast, String.toList_append, List.append_assoc]
  rfl

/-- The consumer reads the duration, in whole seconds, exactly when it is shorter than a day. -/
theorem aspNetDuration_read_back_iff (d : ℕ) :
    parse (aspNetDuration d).toList = some (d / 1000000000 * ticksPerSecond) ↔
      d < 24 * 3600 * 1000000000 := by
  rw [parse_aspNetDuration]
  generalize hs : d / 1000000000 = s
  have hday : d < 24 * 3600 * 1000000000 ↔ s / 3600 ≤ 23 := by omega
  rw [hday]
  constructor
  · intro h
    by_contra hlong
    have hnone : ofParts 0 (s / 3600) (s % 3600 / 60) (s % 60) = none := by
      rw [ofParts, if_neg fun hr => hlong hr.1]
    rw [hnone] at h
    -- as many days as there were hours
    have hdays := ofParts_eq_some (d := s / 3600) h
    simp only [ticksPerSecond] at hdays
    omega
  · intro hshort
    have hsum : ((0 * 24 + s / 3600) * 60 + s % 3600 / 60) * 60 + s % 60 = s := by omega
    have hmax : s * ticksPerSecond ≤ TimeSpan.maxTicks := by
      simp only [ticksPerSecond, TimeSpan.maxTicks]
      omega
    have hfits : ofParts 0 (s / 3600) (s % 3600 / 60) (s % 60) = some (s * ticksPerSecond) := by
      rw [ofParts, hsum]
      exact if_pos ⟨hshort, by omega, by omega, hmax⟩
    rw [hfits]
    rfl

/-- A day is read as twenty-four. -/
theorem day_read_as_twenty_four :
    ¬ ∀ d : ℕ, d < 2 ^ 63 →
      parse (aspNetDuration d).toList = some (d / 1000000000 * ticksPerSecond) := by
  intro hall
  have hread : parse (aspNetDuration (24 * 3600 * 1000000000 : ℕ)).toList =
      some (24 * 24 * 3600 * ticksPerSecond) := by
    decide +kernel
  have h := hall (24 * 3600 * 1000000000) (by decide)
  rw [hread] at h
  exact absurd (Option.some.inj h) (by decide)

end EliteEvents
