import EliteEvents.Lib.Text

/-! Percent-encoding of bytes as text: a byte of a chosen set stands for itself, every other one is a percent sign
and two hexadecimal digits. -/

namespace PercentEncoding

open Text

/-- The percent sign. -/
def percent : UInt16 := 37

/-- 0 to 9, then A to F. -/
def hexDigit (n : ℕ) : UInt16 := UInt16.ofNat (if n < 10 then 48 + n else 55 + n)

def hexValue (u : UInt16) : Option ℕ :=
  let n := u.toNat
  if 48 ≤ n ∧ n ≤ 57 then some (n - 48)
  else if 65 ≤ n ∧ n ≤ 70 then some (n - 55)
  else if 97 ≤ n ∧ n ≤ 102 then some (n - 87)
  else none

section Encode

variable (keep : UInt8 → Bool)

def encodeByte (b : UInt8) : Str :=
  if keep b then [b.toUInt16] else [percent, hexDigit (b.toNat / 16), hexDigit (b.toNat % 16)]

def encode (bytes : List UInt8) : Str := bytes.flatMap (encodeByte keep)

end Encode

/-- The bytes behind a text. A percent sign that no two digits follow stands for itself. -/
def decode : Str → List UInt8
  | [] => []
  | [u] => [u.toUInt8]
  | [u, v] => [u.toUInt8, v.toUInt8]
  | u :: v :: x :: rest =>
    if u = percent then
      match hexValue v, hexValue x with
      | some a, some b => UInt8.ofNat (16 * a + b) :: decode rest
      | _, _ => u.toUInt8 :: decode (v :: x :: rest)
    else u.toUInt8 :: decode (v :: x :: rest)

variable {keep : UInt8 → Bool}

theorem hexValue_hexDigit {n : ℕ} (h : n < 16) : hexValue (hexDigit n) = some n := by
  have hall : ∀ n < 16, hexValue (hexDigit n) = some n := by decide
  exact hall n h

theorem decode_cons {u : UInt16} (hu : u ≠ percent) (rest : Str) : decode (u :: rest) = u.toUInt8 :: decode rest := by
  cases rest with
  | nil => rfl
  | cons v rest =>
    cases rest with
    | nil => simp [decode]
    | cons x rest => rw [decode, if_neg hu]

theorem decode_escaped (b : UInt8) (rest : Str) :
    decode (percent :: hexDigit (b.toNat / 16) :: hexDigit (b.toNat % 16) :: rest) = b :: decode rest := by
  have hb : b.toNat < 256 := b.toNat_lt
  rw [decode, if_pos rfl, hexValue_hexDigit (by omega), hexValue_hexDigit (by omega)]
  simp only [Nat.div_add_mod, UInt8.ofNat_toNat]

/-- What is encoded is read back, as long as the percent sign itself is. -/
theorem decode_encode_append (hk : keep 37 = false) (bytes : List UInt8) (rest : Str) :
    decode (encode keep bytes ++ rest) = bytes ++ decode rest := by
  induction bytes with
  | nil => rfl
  | cons b bytes ih =>
    rw [encode, List.flatMap_cons, List.append_assoc, encodeByte]
    split_ifs with hb
    · have hne : b.toUInt16 ≠ percent := by
        intro he
        have hb' : b = 37 := by
          have := congrArg UInt16.toUInt8 he
          simpa [percent] using this
        rw [hb', hk] at hb
        cases hb
      rw [List.singleton_append, decode_cons hne, ← encode, ih]
      simp
    · rw [List.cons_append, List.cons_append, List.cons_append, List.nil_append, decode_escaped, ← encode, ih]
      rfl

theorem decode_encode (hk : keep 37 = false) (bytes : List UInt8) : decode (encode keep bytes) = bytes := by
  have h := decode_encode_append hk bytes []
  simpa [decode] using h

theorem encode_injective (hk : keep 37 = false) : Function.Injective (encode keep) :=
  Function.LeftInverse.injective (decode_encode hk)

end PercentEncoding
