import EliteEvents.Spec.DockingReader

/-! The calendar: a date that was written is read back as the day it was written for. -/

namespace EliteEvents

open Text

namespace DateTimeOffset

/-- A day of an era of 400 years: its century, the four-year cycle and the year in it, and the day of the year,
which begins in March. -/
theorem era_split {doe : ℕ} (h : doe < 146097) : ∃ c q r k, c < 4 ∧ q < 25 ∧ r < 4 ∧
    doe = 36524 * c + 1461 * q + 365 * r + k ∧ (k < 365 ∨ k = 365 ∧ r = 3 ∧ (q < 24 ∨ c = 3)) := by
  by_cases hlast : doe = 146096
  · exact ⟨3, 24, 3, 365, by omega, by omega, by omega, by omega, by omega⟩
  · refine ⟨doe / 36524, doe % 36524 / 1461, min (doe % 36524 % 1461 / 365) 3,
      doe % 36524 % 1461 - 365 * min (doe % 36524 % 1461 / 365) 3, ?_, ?_, ?_, ?_, ?_⟩
    · omega
    · omega
    · omega
    · omega
    · omega

theorem year_of_era {c q r k doe : ℕ} (hc : c < 4) (hq : q < 25) (hr : r < 4)
    (hd : doe = 36524 * c + 1461 * q + 365 * r + k) (hk : k < 365 ∨ k = 365 ∧ r = 3 ∧ (q < 24 ∨ c = 3)) :
    (doe - doe / 1460 + doe / 36524 - doe / 146096) / 365 = 100 * c + 4 * q + r := by
  have hcycles : doe / 1460 = 25 * c + q + (24 * c + q + 365 * r + k) / 1460 := by omega
  have hcenturies : doe / 36524 - doe / 146096 = c ∧ doe / 146096 ≤ doe / 36524 := by
    clear hcycles
    by_cases hlast : doe = 146096
    · subst hlast
      omega
    · have hrest : 1461 * q + 365 * r + k < 36524 := by omega
      omega
  omega

theorem start_of_year {c q r : ℕ} (hq : q < 25) (hr : r < 4) :
    365 * (100 * c + 4 * q + r) + (100 * c + 4 * q + r) / 4 - (100 * c + 4 * q + r) / 100 =
      36524 * c + 1461 * q + 365 * r := by
  omega

/-- The months of a year that begins in March. -/
theorem month_of_year {k : ℕ} (hk : k ≤ 365) : (5 * k + 2) / 153 ≤ 11 ∧ (153 * ((5 * k + 2) / 153) + 2) / 5 ≤ k := by
  omega

end DateTimeOffset

open DateTimeOffset

/-- Every day is found from its date. -/
theorem dayOfCivil_civil (day : ℕ) :
    dayOfCivil (civil day).1 (civil day).2.1 (civil day).2.2 = day := by
  obtain ⟨c, q, r, k, hc, hq, hr, hd, hk⟩ := era_split (Nat.mod_lt (day + 306) (by decide : 0 < 146097))
  have hyear := year_of_era hc hq hr hd hk
  have hstart := start_of_year (c := c) hq hr
  have hdoy : (day + 306) % 146097 - (36524 * c + 1461 * q + 365 * r) = k := by omega
  have hk' : k ≤ 365 := by omega
  obtain ⟨hmonth, hmonth'⟩ := month_of_year hk'
  simp only [civil, hyear, hstart, hdoy]
  generalize hy : 100 * c + 4 * q + r = yoe at hstart ⊢
  generalize hmp : (5 * k + 2) / 153 = mp at hmonth hmonth' ⊢
  have hyoe : yoe < 400 := by omega
  unfold dayOfCivil
  have hera : (yoe + (day + 306) / 146097 * 400) / 400 = (day + 306) / 146097 := by omega
  have hmod : (yoe + (day + 306) / 146097 * 400) % 400 = yoe := by omega
  by_cases hm : mp < 10
  · have hmar : ¬ mp + 3 ≤ 2 := by omega
    simp only [if_pos hm, if_neg hmar, Nat.add_zero, hera, hmod, Nat.add_sub_cancel]
    omega
  · have hjan : mp - 9 ≤ 2 := by omega
    have hmp' : mp - 9 + 9 = mp := by omega
    simp only [if_neg hm, if_pos hjan, Nat.add_sub_cancel, hera, hmod, hmp']
    omega

/-- The text of a day. -/
def dateText (day : ℕ) : Str :=
  ofChars (padded 4 (civil day).1 ++ '-' :: padded 2 (civil day).2.1 ++ '-' :: padded 2 (civil day).2.2)

theorem date_eq (t : DateTimeOffset) : t.date = dateText t.day := rfl

theorem parseNat_padded (width n : ℕ) : Decimal.parseNat (padded width n) = some n :=
  Decimal.parseNat_replicate_append _ n

theorem parseDate_dateText (day : ℕ) : parseDate (dateText day) = .ok day := by
  have hparts := Decimal.parseNat_splitOn_triple (show '-'.isDigit = false by decide)
    (parseNat_padded 4 (civil day).1) (parseNat_padded 2 (civil day).2.1) (parseNat_padded 2 (civil day).2.2)
  rw [parseDate, dateText, scalars_ofChars, List.append_assoc, List.cons_append, hparts]
  simp only [dayOfCivil_civil, Prod.mk.eta, if_true]

theorem dateText_injective : Function.Injective dateText := by
  intro a b h
  have ha := parseDate_dateText a
  rw [h, parseDate_dateText b] at ha
  cases ha
  rfl

theorem wire_dateText (day : ℕ) : wire (dateText day) = dateText day := wellFormed_ofChars _

end EliteEvents
