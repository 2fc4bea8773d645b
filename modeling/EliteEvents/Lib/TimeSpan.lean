import EliteEvents.Lib.Decimal

/-! A .NET `TimeSpan` read from text: whole numbers between colons. Three of them are hours, minutes and
seconds where the ranges allow it, else days, hours and minutes. -/

namespace TimeSpan

def ticksPerSecond : ℕ := 10000000

/-- Ticks of `TimeSpan.MaxValue`. -/
def maxTicks : ℕ := 2 ^ 63 - 1

/-- The ticks of a number of days, hours, minutes and seconds, each within its range. -/
def ofParts (days hours minutes seconds : ℕ) : Option ℕ :=
  let ticks := (((days * 24 + hours) * 60 + minutes) * 60 + seconds) * ticksPerSecond
  if hours ≤ 23 ∧ minutes ≤ 59 ∧ seconds ≤ 59 ∧ ticks ≤ maxTicks then some ticks else none

/-- `TimeSpan.Parse` of text without a sign and without a fraction. -/
def parse (text : List Char) : Option ℕ :=
  match (text.splitOn ':').mapM Decimal.parseNat with
  | some [days] => ofParts days 0 0 0
  | some [hours, minutes] => ofParts 0 hours minutes 0
  | some [a, b, c] => ofParts 0 a b c <|> ofParts a b c 0
  | some [days, hours, minutes, seconds] => ofParts days hours minutes seconds
  | _ => none

/-- What three numbers between colons read as. -/
theorem parse_triple {s t u : List Char} {a b c : ℕ} (hs : Decimal.parseNat s = some a)
    (ht : Decimal.parseNat t = some b) (hu : Decimal.parseNat u = some c) :
    parse (s ++ ':' :: (t ++ ':' :: u)) = (ofParts 0 a b c <|> ofParts a b c 0) := by
  rw [parse, Decimal.parseNat_splitOn_triple (by decide) hs ht hu]

theorem ofParts_eq_some {d h m s n : ℕ} (he : ofParts d h m s = some n) :
    n = (((d * 24 + h) * 60 + m) * 60 + s) * ticksPerSecond := by
  simp only [ofParts] at he
  split_ifs at he
  exact (Option.some.inj he).symm

/-- Seconds told as hours, minutes and seconds are read as what they are exactly while they make no day. -/
theorem read_seconds_iff (s : ℕ) :
    (ofParts 0 (s / 3600) (s % 3600 / 60) (s % 60) <|> ofParts (s / 3600) (s % 3600 / 60) (s % 60) 0) =
      some (s * ticksPerSecond) ↔ s < 24 * 3600 := by
  constructor
  · intro h
    by_contra hlong
    have hnone : ofParts 0 (s / 3600) (s % 3600 / 60) (s % 60) = none := by
      rw [ofParts, if_neg fun hr => by have := hr.1; omega]
    rw [hnone] at h
    -- as many days as there were hours
    have hdays := ofParts_eq_some (d := s / 3600) h
    simp only [ticksPerSecond] at hdays
    omega
  · intro hshort
    have hsum : ((0 * 24 + s / 3600) * 60 + s % 3600 / 60) * 60 + s % 60 = s := by omega
    have hmax : s * ticksPerSecond ≤ maxTicks := by
      simp only [ticksPerSecond, maxTicks]
      omega
    rw [ofParts, hsum, if_pos ⟨by omega, by omega, by omega, hmax⟩]
    rfl

end TimeSpan
