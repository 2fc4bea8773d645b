import EliteEvents.Lib.Text

/-! Redis glob patterns, matched byte by byte: `*` is any run of bytes, `?` any one byte, a
class in brackets one byte of the listed ones or, after `^`, of the others, and a backslash
takes the next byte literally. ASCII text around a star is read in the text just as it is in
the bytes. -/

namespace Text

inductive GlobToken
  | star
  | any
  | cls (negated : Bool) (ranges : List (UInt8 × UInt8))
  | byte (b : UInt8)
  deriving DecidableEq

/-- The ranges of a class up to its closing bracket, which may be missing, and what follows it. -/
def globClass : ℕ → List UInt8 → List (UInt8 × UInt8) × List UInt8
  | 0, p => ([], p)
  | fuel + 1, p =>
    match p with
    | [] => ([], [])
    | 92 :: b :: p => let (rs, rest) := globClass fuel p; ((b, b) :: rs, rest)
    | 93 :: p => ([], p)
    | a :: 45 :: b :: p => let (rs, rest) := globClass fuel p; ((min a b, max a b) :: rs, rest)
    | b :: p => let (rs, rest) := globClass fuel p; ((b, b) :: rs, rest)

def globTokens : ℕ → List UInt8 → List GlobToken
  | 0, _ => []
  | fuel + 1, p =>
    match p with
    | [] => []
    | 42 :: p => .star :: globTokens fuel p
    | 63 :: p => .any :: globTokens fuel p
    | 91 :: 94 :: p => let (rs, rest) := globClass fuel p; .cls true rs :: globTokens fuel rest
    | 91 :: p => let (rs, rest) := globClass fuel p; .cls false rs :: globTokens fuel rest
    | 92 :: b :: p => .byte b :: globTokens fuel p
    | b :: p => .byte b :: globTokens fuel p

def GlobToken.accepts (c : UInt8) : GlobToken → Bool
  | .star => false
  | .any => true
  | .cls negated ranges => negated != ranges.any fun r => decide (r.1 ≤ c) && decide (c ≤ r.2)
  | .byte b => decide (b = c)

def globTokensMatch : List GlobToken → List UInt8 → Bool
  | [], s => s.isEmpty
  | .star :: ts, s => s.tails.any (globTokensMatch ts)
  | _ :: _, [] => false
  | t :: ts, c :: s => t.accepts c && globTokensMatch ts s

/-- `stringmatchlen`. The empty string matches the empty pattern only, not even `*`. -/
def glob (p s : List UInt8) : Bool :=
  if s.isEmpty then p.isEmpty else globTokensMatch (globTokens p.length p) s

/-- SCAN's MATCH: pattern and key are compared as UTF-8. -/
def globMatch (pattern key : Str) : Bool := glob (utf8 pattern) (utf8 key)

theorem globTokensMatch_literal (b s : List UInt8) :
    globTokensMatch (b.map .byte) s = true ↔ s = b := by
  induction b generalizing s with
  | nil => simp [globTokensMatch]
  | cons p b ih =>
    cases s with
    | nil => simp [globTokensMatch]
    | cons c s =>
      simp only [List.map_cons, globTokensMatch, GlobToken.accepts, Bool.and_eq_true,
        decide_eq_true_eq, ih, List.cons.injEq]
      exact and_congr_left' eq_comm

theorem globTokensMatch_star (b s : List UInt8) :
    globTokensMatch (.star :: b.map .byte) s = true ↔ b <:+ s := by
  simp only [globTokensMatch, List.any_eq_true, List.mem_tails, globTokensMatch_literal]
  constructor
  · rintro ⟨t, ht, rfl⟩
    exact ht
  · exact fun h => ⟨b, h, rfl⟩

theorem globTokensMatch_around_star (a b s : List UInt8) :
    globTokensMatch (a.map .byte ++ .star :: b.map .byte) s = true ↔ ∃ m, s = a ++ (m ++ b) := by
  induction a generalizing s with
  | nil =>
    rw [List.map_nil, List.nil_append, globTokensMatch_star]
    exact exists_congr fun m => eq_comm
  | cons p a ih =>
    cases s with
    | nil => simp [globTokensMatch]
    | cons c s =>
      simp only [List.map_cons, List.cons_append, globTokensMatch, GlobToken.accepts,
        Bool.and_eq_true, decide_eq_true_eq, ih, List.cons.injEq]
      constructor
      · rintro ⟨rfl, m, rfl⟩
        exact ⟨m, rfl, rfl⟩
      · rintro ⟨m, rfl, rfl⟩
        exact ⟨rfl, m, rfl⟩

/-- The UTF-8 bytes of a run of characters. -/
def encode (cs : List Char) : List UInt8 := cs.flatMap String.utf8EncodeChar

theorem encode_append (a b : List Char) : encode (a ++ b) = encode a ++ encode b :=
  List.flatMap_append

theorem utf8_ofChars (cs : List Char) : utf8 (ofChars cs) = encode cs := by
  rw [utf8, scalars_ofChars, encode]

theorem ofChars_append (a b : List Char) : ofChars (a ++ b) = ofChars a ++ ofChars b :=
  List.flatMap_append

theorem utf8EncodeChar_ascii {c : Char} (h : c.toNat < 0x80) :
    String.utf8EncodeChar c = [UInt8.ofNat c.toNat] := by
  have hs : c.utf8Size = 1 := by
    rw [Char.utf8Size_eq_one_iff, UInt32.le_iff_toNat_le]
    exact Nat.le_of_lt_succ h
  rw [String.utf8EncodeChar_eq_singleton hs]
  rfl

/-- Every byte of a character outside ASCII is 0x80 or above. -/
theorem le_of_mem_utf8EncodeChar {c : Char} (h : 0x80 ≤ c.toNat) {u : UInt8}
    (hu : u ∈ String.utf8EncodeChar c) : 0x80 ≤ u.toNat := by
  have hv : ¬ c.val.toNat ≤ 0x7f := fun hle => not_le.mpr (Nat.lt_succ_of_le hle) h
  have hbyte : ∀ n, 0x80 ≤ n → n < 256 → 0x80 ≤ (UInt8.ofNat n).toNat := by
    intro n h1 h2
    rw [UInt8.toNat_ofNat_of_lt' h2]
    exact h1
  unfold String.utf8EncodeChar at hu
  simp only [hv, if_false] at hu
  split_ifs at hu <;> simp only [List.mem_cons, List.not_mem_nil, or_false] at hu
  · rcases hu with rfl | rfl <;> exact hbyte _ (by omega) (by omega)
  · rcases hu with rfl | rfl | rfl <;> exact hbyte _ (by omega) (by omega)
  · rcases hu with rfl | rfl | rfl | rfl <;> exact hbyte _ (by omega) (by omega)

def Ascii (cs : List Char) : Prop := ∀ c ∈ cs, c.toNat < 0x80

instance (cs : List Char) : Decidable (Ascii cs) := inferInstanceAs (Decidable (∀ c ∈ cs, _))

/-- A character whose bytes contain an ASCII byte is that character. -/
theorem char_eq_of_mem {c d : Char} (hd : d.toNat < 0x80)
    (h : UInt8.ofNat d.toNat ∈ String.utf8EncodeChar c) : c = d := by
  have hdn : (UInt8.ofNat d.toNat).toNat = d.toNat := UInt8.toNat_ofNat_of_lt' (by
    show d.toNat < 256
    omega)
  by_cases hc : c.toNat < 0x80
  · rw [utf8EncodeChar_ascii hc, List.mem_singleton] at h
    have hcn : (UInt8.ofNat c.toNat).toNat = c.toNat := UInt8.toNat_ofNat_of_lt' (by
      show c.toNat < 256
      omega)
    rw [← Char.ofNat_toNat c, ← Char.ofNat_toNat d, ← hcn, ← h, hdn]
  · have := le_of_mem_utf8EncodeChar (not_lt.mp hc) h
    omega

/-- Bytes that start with an ASCII literal are those of text that starts with it. -/
theorem encode_eq_ascii_append {p : List Char} (hp : Ascii p) {cs : List Char} {r : List UInt8}
    (h : encode cs = encode p ++ r) : ∃ cs', cs = p ++ cs' ∧ encode cs' = r := by
  induction p generalizing cs with
  | nil => exact ⟨cs, rfl, h⟩
  | cons d p ih =>
    have hd : d.toNat < 0x80 := hp d (by simp)
    rw [encode, encode, List.flatMap_cons, utf8EncodeChar_ascii hd, List.append_assoc,
      List.singleton_append] at h
    cases cs with
    | nil => cases h
    | cons c cs =>
      have hc : c = d := by
        refine char_eq_of_mem hd ?_
        obtain ⟨u, t, hu⟩ := List.exists_cons_of_ne_nil (String.utf8EncodeChar_ne_nil (c := c))
        rw [List.flatMap_cons, hu, List.cons_append, List.cons.injEq] at h
        rw [hu, h.1]
        exact List.mem_cons_self
      subst hc
      rw [List.flatMap_cons, utf8EncodeChar_ascii hd, List.singleton_append, List.cons.injEq] at h
      obtain ⟨cs', rfl, hr⟩ := ih (fun x hx => hp x (by simp [hx])) h.2
      exact ⟨cs', rfl, hr⟩

theorem encode_eq_append_ascii {p : List Char} (hp : Ascii p) {cs : List Char} {r : List UInt8}
    (h : encode cs = r ++ encode p) : ∃ cs', cs = cs' ++ p ∧ encode cs' = r := by
  induction p using List.reverseRecOn generalizing cs with
  | nil => exact ⟨cs, by simp, by simpa [encode] using h⟩
  | append_singleton p d ih =>
    have hd : d.toNat < 0x80 := hp d (by simp)
    have hlast : encode [d] = [UInt8.ofNat d.toNat] := by
      rw [encode, List.flatMap_singleton, utf8EncodeChar_ascii hd]
    rw [encode_append, hlast, ← List.append_assoc] at h
    cases cs using List.reverseRecOn with
    | nil => exact absurd h (by simp [encode])
    | append_singleton cs c =>
      have hc : c = d := by
        refine char_eq_of_mem hd ?_
        obtain ⟨t, u, hu⟩ :=
          (List.eq_nil_or_concat' (String.utf8EncodeChar c)).resolve_left String.utf8EncodeChar_ne_nil
        have hsc : encode [c] = String.utf8EncodeChar c := List.flatMap_singleton ..
        rw [encode_append, hsc, hu, ← List.append_assoc] at h
        rw [hu, (List.append_inj' h rfl).2]
        exact List.mem_append_right _ (by simp)
      subst hc
      rw [encode_append, hlast] at h
      obtain ⟨cs', rfl, hr⟩ := ih (fun x hx => hp x (by simp [hx])) (List.append_cancel_right h)
      exact ⟨cs', by rw [List.append_assoc], hr⟩

/-- A pattern of two ASCII literals around a star matches the keys that start with the one
and, after it, end with the other. -/
theorem globMatch_iff {pattern : Str} {a b : List Char} (ha : Ascii a) (hb : Ascii b) (hne : a ≠ [])
    (hp : globTokens (utf8 pattern).length (utf8 pattern) =
      (encode a).map .byte ++ .star :: (encode b).map .byte) {key : Str} (hk : WellFormed key) :
    globMatch pattern key = true ↔ ∃ cs, key = ofChars a ++ (ofChars cs ++ ofChars b) := by
  have hempty : ∀ m, (encode a ++ m).isEmpty = false := by
    intro m
    obtain ⟨c, a, rfl⟩ := List.exists_cons_of_ne_nil hne
    obtain ⟨u, t, hu⟩ := List.exists_cons_of_ne_nil (String.utf8EncodeChar_ne_nil (c := c))
    rw [encode, List.flatMap_cons, hu]
    rfl
  have hmatch : globMatch pattern key = true ↔ ∃ m, utf8 key = encode a ++ (m ++ encode b) := by
    rw [globMatch, glob]
    split_ifs with h
    · have hpat : (utf8 pattern).isEmpty = false := by
        cases hu : utf8 pattern with
        | nil => rw [hu] at hp; exact absurd hp (by simp [globTokens])
        | cons u p => rfl
      rw [hpat]
      refine ⟨fun h => absurd h Bool.false_ne_true, fun ⟨m, hm⟩ => ?_⟩
      rw [hm, hempty] at h
      cases h
    · rw [hp, globTokensMatch_around_star]
  rw [hmatch]
  constructor
  · rintro ⟨m, hm⟩
    rw [utf8] at hm
    obtain ⟨r, hr, hm⟩ := encode_eq_ascii_append ha hm
    obtain ⟨cs, rfl, -⟩ := encode_eq_append_ascii hb hm
    refine ⟨cs, ?_⟩
    rw [← show wire key = key from hk, wire, hr, ofChars_append, ofChars_append]
  · rintro ⟨cs, rfl⟩
    refine ⟨encode cs, ?_⟩
    rw [← ofChars_append, ← ofChars_append, utf8_ofChars, encode_append, encode_append]

/-! Escaped text. -/

/-- A byte of a pattern that stands for itself. -/
def escapeByte (b : UInt8) : List UInt8 := if b ∈ ([42, 63, 91, 93, 92] : List UInt8) then [92, b] else [b]

theorem globTokens_nil (fuel : ℕ) : globTokens fuel [] = [] := by
  cases fuel <;> rfl

theorem globTokens_escapeByte (fuel : ℕ) (b : UInt8) (p : List UInt8) :
    globTokens (fuel + 1) (escapeByte b ++ p) = .byte b :: globTokens fuel p := by
  unfold escapeByte
  split_ifs with h
  · rfl
  · simp only [List.mem_cons, List.not_mem_nil, or_false, not_or] at h
    obtain ⟨h1, h2, h3, -, h4⟩ := h
    rw [List.singleton_append, globTokens]
    · exact h1
    · exact h2
    · intro q hb
      exact absurd hb h3
    · exact h3
    · intro c q hb
      exact absurd hb h4

theorem globTokens_escaped (bs p : List UInt8) (fuel : ℕ) :
    globTokens (bs.length + fuel) (bs.flatMap escapeByte ++ p) = bs.map .byte ++ globTokens fuel p := by
  induction bs with
  | nil => simp
  | cons b bs ih =>
    rw [List.flatMap_cons, List.append_assoc, List.length_cons, Nat.add_right_comm, globTokens_escapeByte, ih]
    rfl

theorem globTokensMatch_between_stars (b s : List UInt8) :
    globTokensMatch (.star :: (b.map .byte ++ [.star])) s = true ↔ b <:+: s := by
  have htail : ∀ t, globTokensMatch (b.map .byte ++ [.star]) t = true ↔ b <+: t := by
    intro t
    rw [show ([.star] : List GlobToken) = .star :: ([] : List UInt8).map .byte from rfl, globTokensMatch_around_star]
    simp only [List.append_nil]
    exact ⟨fun h => ⟨_, h.choose_spec.symm⟩, fun h => ⟨_, h.choose_spec.symm⟩⟩
  simp only [globTokensMatch, List.any_eq_true, List.mem_tails, htail]
  rw [List.infix_iff_prefix_suffix]
  exact exists_congr fun t => and_comm

theorem length_le_escaped (b : List UInt8) : b.length ≤ (b.flatMap escapeByte).length := by
  induction b with
  | nil => exact le_rfl
  | cons a b ih =>
    have ha : 1 ≤ (escapeByte a).length := by
      unfold escapeByte
      split_ifs <;> simp
    rw [List.flatMap_cons, List.length_append, List.length_cons]
    omega

theorem globTokens_contains (b : List UInt8) :
    globTokens (42 :: (b.flatMap escapeByte ++ [42])).length (42 :: (b.flatMap escapeByte ++ [42])) =
      .star :: (b.map .byte ++ [.star]) := by
  have hlen : (42 :: (b.flatMap escapeByte ++ [42])).length =
      b.length + ((b.flatMap escapeByte).length - b.length + 1) + 1 := by
    have hle := length_le_escaped b
    simp only [List.length_cons, List.length_append, List.length_nil]
    omega
  rw [hlen]
  show GlobToken.star :: globTokens (b.length + _) (b.flatMap escapeByte ++ [42]) = _
  rw [globTokens_escaped]
  show GlobToken.star :: (b.map .byte ++ .star :: globTokens _ []) = _
  rw [globTokens_nil]

/-- Between two stars escaped bytes match the strings that contain them. -/
theorem glob_contains {b s : List UInt8} (h : b ≠ [] ∨ s ≠ []) :
    glob (42 :: (b.flatMap escapeByte ++ [42])) s = true ↔ b <:+: s := by
  rw [glob]
  split_ifs with hs
  · have hs := List.isEmpty_iff.mp hs
    have hb := h.resolve_right (not_not.mpr hs)
    rw [hs]
    simp [hb]
  · rw [globTokens_contains, globTokensMatch_between_stars]

end Text
