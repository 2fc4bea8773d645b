import EliteEvents.Lib.Text

/-! Decimal integers as text: the rendering `strconv.Itoa`, Redis and .NET share, and the
reading `strconv.Atoi`, `int.Parse` and Redis share (an optional sign, then digits). -/

namespace Decimal

open Text

def parseNat (cs : List Char) : Option ℕ :=
  if cs ≠ [] ∧ ∀ c ∈ cs, c.isDigit then some (Nat.ofDigitChars 10 cs 0) else none

def parse : List Char → Option ℤ
  | '-' :: cs => (parseNat cs).map fun n => -(n : ℤ)
  | '+' :: cs => (parseNat cs).map fun n => (n : ℤ)
  | cs => (parseNat cs).map fun n => (n : ℤ)

def render : ℤ → List Char
  | .ofNat n => Nat.toDigits 10 n
  | .negSucc n => '-' :: Nat.toDigits 10 (n + 1)

theorem parseNat_toDigits (n : ℕ) : parseNat (Nat.toDigits 10 n) = some n := by
  have hd : ∀ c ∈ Nat.toDigits 10 n, c.isDigit := fun c hc =>
    Nat.isDigit_of_mem_toDigits (by decide) (by decide) hc
  rw [parseNat, if_pos ⟨Nat.toDigits_ne_nil, hd⟩, Nat.ofDigitChars_ten_toDigits]

/-- Leading zeros change nothing. -/
theorem parseNat_replicate_append (k n : ℕ) : parseNat (List.replicate k '0' ++ Nat.toDigits 10 n) = some n := by
  have hd : ∀ c ∈ List.replicate k '0' ++ Nat.toDigits 10 n, c.isDigit := by
    intro c hc
    rcases List.mem_append.mp hc with hc | hc
    · rw [List.eq_of_mem_replicate hc]
      decide
    · exact Nat.isDigit_of_mem_toDigits (by decide) (by decide) hc
  rw [parseNat, if_pos ⟨by simp [Nat.toDigits_ne_nil], hd⟩, Nat.ofDigitChars_append,
    Nat.ofDigitChars_replicate_zero, Nat.mul_zero, Nat.ofDigitChars_ten_toDigits]

/-- Three numbers between separators. -/
theorem parseNat_splitOn_triple {sep : Char} (hsep : sep.isDigit = false) {s t u : List Char} {a b c : ℕ}
    (hs : parseNat s = some a) (ht : parseNat t = some b) (hu : parseNat u = some c) :
    ((s ++ sep :: (t ++ sep :: u)).splitOn sep).mapM parseNat = some [a, b, c] := by
  have hnot : ∀ {l : List Char} {n : ℕ}, parseNat l = some n → sep ∉ l := by
    intro l n hl hmem
    unfold parseNat at hl
    split_ifs at hl with hd
    rw [hd.2 _ hmem] at hsep
    cases hsep
  rw [List.splitOn_append_cons_self_of_not_mem (hnot hs), List.splitOn_append_cons_self_of_not_mem (hnot ht),
    List.splitOn_eq_singleton (hnot hu)]
  simp [hs, ht, hu]

/-- Text that starts with neither sign is read as digits. -/
theorem parse_of_unsigned {cs : List Char} (hm : cs.head? ≠ some '-') (hp : cs.head? ≠ some '+') :
    parse cs = (parseNat cs).map fun n => (n : ℤ) := by
  unfold parse
  split
  · exact absurd rfl hm
  · exact absurd rfl hp
  · rfl

theorem toDigits_head_isDigit {n : ℕ} {c : Char} (h : (Nat.toDigits 10 n).head? = some c) :
    c.isDigit := by
  refine Nat.isDigit_of_mem_toDigits (b := 10) (n := n) (by decide) (by decide) ?_
  exact List.mem_of_mem_head? h

/-- Every integer is read back from its own rendering. -/
theorem parse_render (n : ℤ) : parse (render n) = some n := by
  cases n with
  | ofNat n =>
    have hm : (Nat.toDigits 10 n).head? ≠ some '-' := fun h =>
      absurd (toDigits_head_isDigit h) (by decide)
    have hp : (Nat.toDigits 10 n).head? ≠ some '+' := fun h =>
      absurd (toDigits_head_isDigit h) (by decide)
    rw [render, parse_of_unsigned hm hp, parseNat_toDigits]
    rfl
  | negSucc n =>
    rw [render, parse, parseNat_toDigits]
    rfl

theorem render_injective : Function.Injective render := by
  intro m n h
  have hm := parse_render m
  rw [h, parse_render n] at hm
  exact (Option.some.inj hm).symm

theorem toList_toString (n : ℤ) : (toString n).toList = render n := by
  cases n with
  | ofNat n => exact Nat.toList_repr
  | negSucc n =>
    show (("-" : String) ++ Nat.repr (n + 1)).toList = _
    rw [String.toList_append, Nat.toList_repr]
    rfl

theorem toString_injective : Function.Injective (toString : ℤ → String) := by
  intro m n h
  apply render_injective
  rw [← toList_toString, ← toList_toString, h]

/-- The text of an integer in a .NET or Redis string. -/
def text (n : ℤ) : Str := ofChars (render n)

/-- The integer a string holds, if its whole content is one. -/
def ofText (s : Str) : Option ℤ := parse (scalars s)

@[simp] theorem ofText_text (n : ℤ) : ofText (text n) = some n := by
  rw [ofText, text, scalars_ofChars, parse_render]

theorem text_injective : Function.Injective text := by
  intro m n h
  have hof := congrArg ofText h
  rw [ofText_text, ofText_text] at hof
  exact Option.some.inj hof

@[simp] theorem wire_text (n : ℤ) : wire (text n) = text n := wellFormed_ofChars (render n)

end Decimal
