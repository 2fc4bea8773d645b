import Mathlib.Data.List.Basic
import Mathlib.Data.Char
import Mathlib.Tactic

/-! Text as a .NET process holds it and as it comes back from a UTF-8 wire. A
`string` is a list of UTF-16 code units whose surrogates need not be paired;
encoding it to UTF-8 replaces every unpaired surrogate by U+FFFD. -/

namespace Text

/-- A quantifier over a list is decided along the list, also where the elements are finitely many. -/
instance (priority := high) decidableForallMem {α : Type} (l : List α) (p : α → Prop) [DecidablePred p] :
    Decidable (∀ a ∈ l, p a) := List.decidableBAll p l

/-- A .NET `string`: UTF-16 code units, surrogates paired or not. -/
abbrev Str := List UInt16

/-- Membership in a list of strings is decided by their comparison. -/
instance (priority := high) lawfulBEqStr : LawfulBEq Str := inferInstance

def isHigh (u : UInt16) : Bool := decide (0xD800 ≤ u.toNat) && decide (u.toNat < 0xDC00)
def isLow (u : UInt16) : Bool := decide (0xDC00 ≤ u.toNat) && decide (u.toNat < 0xE000)

def isPlain (u : UInt16) : Bool := !isHigh u && !isLow u

def pairChar (u v : UInt16) : Char :=
  Char.ofNat (0x10000 + (u.toNat - 0xD800) * 0x400 + (v.toNat - 0xDC00))

def replacement : Char := Char.ofNat 0xFFFD

/-- The Unicode scalars a UTF-8 encoder reads from the code units: a surrogate
pair is one scalar, an unpaired surrogate is the replacement character. -/
def scalars : Str → List Char
  | [] => []
  | [u] => [if isPlain u then Char.ofNat u.toNat else replacement]
  | u :: v :: s =>
    if isHigh u && isLow v then pairChar u v :: scalars s
    else (if isPlain u then Char.ofNat u.toNat else replacement) :: scalars (v :: s)

def utf16 (c : Char) : Str :=
  if c.toNat < 0x10000 then [UInt16.ofNat c.toNat]
  else [UInt16.ofNat (0xD800 + (c.toNat - 0x10000) / 0x400),
    UInt16.ofNat (0xDC00 + (c.toNat - 0x10000) % 0x400)]

def ofChars (cs : List Char) : Str := cs.flatMap utf16

/-- A literal of the source. -/
def lit (s : String) : Str := ofChars s.toList

/-- What a string reads as after one trip through UTF-8. -/
def wire (s : Str) : Str := ofChars (scalars s)

/-- The UTF-8 bytes of a string. -/
def utf8 (s : Str) : List UInt8 := (scalars s).flatMap String.utf8EncodeChar

/-- A string is well formed when every surrogate is paired, so that UTF-8 keeps it. -/
def WellFormed (s : Str) : Prop := wire s = s

instance (s : Str) : Decidable (WellFormed s) := inferInstanceAs (Decidable (wire s = s))

@[simp] theorem wire_nil : wire [] = [] := rfl

theorem scalars_cons_plain {u : UInt16} (h : isPlain u = true) (s : Str) :
    scalars (u :: s) = Char.ofNat u.toNat :: scalars s := by
  have hh : isHigh u = false := by
    simp only [isPlain, Bool.and_eq_true, Bool.not_eq_true'] at h
    exact h.1
  cases s with
  | nil => simp [scalars, h]
  | cons v s => simp [scalars, h, hh]

theorem scalars_lone {u : UInt16} (h : isPlain u = false) (s : Str)
    (hs : ∀ v t, s = v :: t → (isHigh u && isLow v) = false) :
    scalars (u :: s) = replacement :: scalars s := by
  cases s with
  | nil => simp [scalars, h]
  | cons v s => simp [scalars, h, hs v s rfl]

theorem scalars_pair {u v : UInt16} (hu : isHigh u = true) (hv : isLow v = true) (s : Str) :
    scalars (u :: v :: s) = pairChar u v :: scalars s := by
  simp [scalars, hu, hv]

/-- Cutting before a code unit that cannot complete a pair cuts the scalars too. -/
theorem scalars_append (a : Str) {c : UInt16} (hc : isLow c = false) (b : Str) :
    scalars (a ++ c :: b) = scalars a ++ scalars (c :: b) := by
  induction a using scalars.induct with
  | case1 => rfl
  | case2 u => simp [scalars, hc]
  | case3 u v s h ih =>
    simp only [Bool.and_eq_true] at h
    simp only [List.cons_append, scalars_pair h.1 h.2, ih]
  | case4 u v s h ih =>
    simp only [List.cons_append] at ih ⊢
    simp only [scalars, h, Bool.false_eq_true, if_false, ih, List.cons_append]

theorem wire_append (a : Str) {c : UInt16} (hc : isLow c = false) (b : Str) :
    wire (a ++ c :: b) = wire a ++ wire (c :: b) := by
  rw [wire, scalars_append a hc, ofChars, List.flatMap_append]
  rfl

theorem isPlain_toNat {u : UInt16} (h : isPlain u = true) :
    u.toNat < 0xD800 ∨ 0xE000 ≤ u.toNat := by
  simp only [isPlain, isHigh, isLow, Bool.and_eq_true, Bool.not_eq_true', Bool.and_eq_false_iff,
    decide_eq_false_iff_not] at h
  omega

theorem isPlain_low_false {u : UInt16} (h : isPlain u = true) : isLow u = false := by
  simp only [isPlain, Bool.and_eq_true, Bool.not_eq_true'] at h
  exact h.2

theorem toNat_ofNat_of_valid {n : ℕ} (h : n.isValidChar) : (Char.ofNat n).toNat = n := by
  rw [Char.ofNat, dif_pos h]
  exact UInt32.toNat_ofNatLT

theorem utf16_ofNat_plain {u : UInt16} (h : isPlain u = true) :
    utf16 (Char.ofNat u.toNat) = [u] := by
  have hlt : u.toNat < 65536 := u.toNat_lt
  have hv : u.toNat.isValidChar := by
    rcases isPlain_toNat h with h | h
    · exact Or.inl h
    · exact Or.inr ⟨by omega, by omega⟩
  simp [utf16, toNat_ofNat_of_valid hv, hlt]

theorem wire_cons_plain {u : UInt16} (h : isPlain u = true) (s : Str) :
    wire (u :: s) = u :: wire s := by
  rw [wire, scalars_cons_plain h, ofChars, List.flatMap_cons, utf16_ofNat_plain h]
  rfl

/-- A run of code units outside the surrogate range passes through unchanged, and
what stands on either side of it is encoded on its own. -/
theorem wire_plain_append {l : Str} (hl : ∀ u ∈ l, isPlain u = true) (b : Str) :
    wire (l ++ b) = l ++ wire b := by
  induction l with
  | nil => rfl
  | cons u l ih =>
    rw [List.cons_append, wire_cons_plain (hl u (by simp)), ih fun v hv => hl v (by simp [hv]),
      List.cons_append]

theorem wire_append_plain (a : Str) {l : Str} (hl : ∀ u ∈ l, isPlain u = true) (hne : l ≠ [])
    (b : Str) : wire (a ++ (l ++ b)) = wire a ++ (l ++ wire b) := by
  cases l with
  | nil => exact absurd rfl hne
  | cons c l =>
    rw [List.cons_append, wire_append a (isPlain_low_false (hl c (by simp))), ← List.cons_append,
      wire_plain_append hl]

theorem pairChar_toNat {u v : UInt16} (hu : isHigh u = true) (hv : isLow v = true) :
    (pairChar u v).toNat = 0x10000 + (u.toNat - 0xD800) * 0x400 + (v.toNat - 0xDC00) := by
  simp only [isHigh, isLow, Bool.and_eq_true, decide_eq_true_eq] at hu hv
  have hvalid : (0x10000 + (u.toNat - 0xD800) * 0x400 + (v.toNat - 0xDC00)).isValidChar :=
    Or.inr ⟨by omega, by omega⟩
  exact toNat_ofNat_of_valid hvalid

theorem utf16_pairChar {u v : UInt16} (hu : isHigh u = true) (hv : isLow v = true) :
    utf16 (pairChar u v) = [u, v] := by
  have hn := pairChar_toNat hu hv
  simp only [isHigh, isLow, Bool.and_eq_true, decide_eq_true_eq] at hu hv
  have h1 : (pairChar u v).toNat - 0x10000 = (u.toNat - 0xD800) * 0x400 + (v.toNat - 0xDC00) := by
    omega
  have h2 : 0xD800 + ((pairChar u v).toNat - 0x10000) / 0x400 = u.toNat := by omega
  have h3 : 0xDC00 + ((pairChar u v).toNat - 0x10000) % 0x400 = v.toNat := by omega
  rw [utf16, if_neg (by omega), h2, h3]
  simp

/-- Reading a character back from its own code units. -/
theorem scalars_utf16 (c : Char) (s : Str) : scalars (utf16 c ++ s) = c :: scalars s := by
  have hmax : c.toNat.isValidChar := c.valid
  have hof : Char.ofNat c.toNat = c := Char.ofNat_toNat c
  unfold utf16
  split_ifs with h
  · have hu : (UInt16.ofNat c.toNat).toNat = c.toNat := by simp; omega
    have hp : isPlain (UInt16.ofNat c.toNat) = true := by
      simp only [isPlain, isHigh, isLow, hu]
      rcases hmax with hm | hm
      · simp; omega
      · simp; omega
    rw [List.singleton_append, scalars_cons_plain hp, hu, hof]
  · have hb : c.toNat < 0x110000 := by
      rcases hmax with hm | hm
      · omega
      · exact hm.2
    set hi := 0xD800 + (c.toNat - 0x10000) / 0x400 with hhi
    set lo := 0xDC00 + (c.toNat - 0x10000) % 0x400 with hlo
    have e1 : (UInt16.ofNat hi).toNat = hi := by simp; omega
    have e2 : (UInt16.ofNat lo).toNat = lo := by simp; omega
    have h1 : isHigh (UInt16.ofNat hi) = true := by
      simp only [isHigh, e1, Bool.and_eq_true, decide_eq_true_eq]; omega
    have h2 : isLow (UInt16.ofNat lo) = true := by
      simp only [isLow, e2, Bool.and_eq_true, decide_eq_true_eq]; omega
    have hc : pairChar (UInt16.ofNat hi) (UInt16.ofNat lo) = c := by
      have hsum : 0x10000 + (hi - 0xD800) * 0x400 + (lo - 0xDC00) = c.toNat := by omega
      rw [pairChar, e1, e2, hsum, hof]
    simp only [List.cons_append, List.nil_append]
    rw [scalars_pair h1 h2, hc]

theorem scalars_ofChars_append (cs : List Char) (s : Str) :
    scalars (ofChars cs ++ s) = cs ++ scalars s := by
  induction cs with
  | nil => rfl
  | cons c cs ih =>
    rw [ofChars, List.flatMap_cons, List.append_assoc, scalars_utf16, List.cons_append]
    exact congrArg _ ih

theorem scalars_ofChars (cs : List Char) : scalars (ofChars cs) = cs := by
  have h := scalars_ofChars_append cs []
  rwa [List.append_nil, scalars, List.append_nil] at h

/-- What came off the wire goes over it again unchanged. -/
@[simp] theorem wire_wire (s : Str) : wire (wire s) = wire s := by
  rw [wire, wire, scalars_ofChars]

theorem wellFormed_wire (s : Str) : WellFormed (wire s) := wire_wire s

theorem wellFormed_ofChars (cs : List Char) : WellFormed (ofChars cs) := by
  rw [WellFormed, wire, scalars_ofChars]

/-- ASCII code units are neither lost nor invented by the encoding. -/
theorem mem_wire {c : UInt16} (hc : c.toNat < 0x80) (s : Str) : c ∈ wire s ↔ c ∈ s := by
  have hrep : c ∉ utf16 replacement := by
    intro h
    have : c = 0xFFFD := by simpa [utf16, replacement] using h
    subst this
    exact absurd hc (by decide)
  have hsur : ∀ u : UInt16, isPlain u = false → c ≠ u := by
    rintro u hu rfl
    simp only [isPlain, isHigh, isLow] at hu
    simp at hu
    omega
  have hchar : ∀ u : UInt16,
      c ∈ utf16 (if isPlain u then Char.ofNat u.toNat else replacement) ↔ c = u := by
    intro u
    split_ifs with hp
    · simp [utf16_ofNat_plain hp]
    · exact ⟨fun h => absurd h hrep, fun h => absurd h (hsur u (by simpa using hp))⟩
  induction s using scalars.induct with
  | case1 => simp
  | case2 u => simpa [wire, ofChars, scalars] using hchar u
  | case3 u v s h ih =>
    simp only [Bool.and_eq_true] at h
    have hw : wire (u :: v :: s) = u :: v :: wire s := by
      rw [wire, scalars_pair h.1 h.2, ofChars, List.flatMap_cons, utf16_pairChar h.1 h.2]
      rfl
    simp [hw, ih]
  | case4 u v s h ih =>
    have hw : wire (u :: v :: s) =
        utf16 (if isPlain u then Char.ofNat u.toNat else replacement) ++ wire (v :: s) := by
      simp only [wire, scalars, h, Bool.false_eq_true, if_false, ofChars, List.flatMap_cons]
    simp only [hw, List.mem_append, hchar u, ih, List.mem_cons]

theorem not_mem_scalars {c : Char} (hc : c.toNat < 0x80) {s : Str} (h : UInt16.ofNat c.toNat ∉ s) :
    c ∉ scalars s := by
  intro hmem
  have hsmall : (UInt16.ofNat c.toNat).toNat < 0x80 := by simp; omega
  refine h ((mem_wire hsmall s).mp ?_)
  rw [wire, ofChars, List.mem_flatMap]
  exact ⟨c, hmem, by rw [utf16, if_pos (by omega)]; exact List.mem_singleton_self _⟩

/-- A free-text field followed by a tag ends where the tag starts, if the letter after
the tag's separator can occur in neither field: the separator itself may. -/
theorem field_unique {α : Type*} {P : α → Prop} {sep l l' : α} {r r' : List α} (hl : ¬ P l)
    (hl' : ¬ P l') (hsep : P sep) {a a' : List α} (ha : ∀ u ∈ a, P u) (ha' : ∀ u ∈ a', P u)
    (h : a ++ sep :: l :: r = a' ++ sep :: l' :: r') : a = a' ∧ l = l' ∧ r = r' := by
  induction a generalizing a' with
  | nil =>
    cases a' with
    | nil => simpa using h
    | cons u a' =>
      -- the second letter of the tag would belong to the other field, or be the separator
      rw [List.nil_append, List.cons_append, List.cons.injEq] at h
      cases a' with
      | nil => exact absurd ((List.cons.inj h.2).1 ▸ hsep) hl
      | cons v a' => exact absurd ((List.cons.inj h.2).1 ▸ ha' v (by simp)) hl
  | cons u a ih =>
    cases a' with
    | nil =>
      rw [List.nil_append, List.cons_append, List.cons.injEq] at h
      cases a with
      | nil => exact absurd ((List.cons.inj h.2).1 ▸ hsep) hl'
      | cons v a => exact absurd ((List.cons.inj h.2).1 ▸ ha v (by simp)) hl'
    | cons u' a' =>
      rw [List.cons_append, List.cons_append, List.cons.injEq] at h
      obtain ⟨e1, e2⟩ := ih (fun w hw => ha w (by simp [hw])) (fun w hw => ha' w (by simp [hw])) h.2
      exact ⟨by rw [h.1, e1], e2⟩

/-- Where a separator occurs last is no question of what surrounds it. -/
theorem append_separator_inj {α : Type} {a : α} {l₁ l₂ d₁ d₂ : List α} (h₁ : a ∉ d₁) (h₂ : a ∉ d₂)
    (h : l₁ ++ a :: d₁ = l₂ ++ a :: d₂) : l₁ = l₂ ∧ d₁ = d₂ := by
  rcases List.append_eq_append_iff.mp h with ⟨c, rfl, hc⟩ | ⟨c, rfl, hc⟩
  · cases c with
    | nil => exact ⟨(List.append_nil l₁).symm, (List.cons.inj hc).2⟩
    | cons b c =>
      rw [(List.cons.inj hc).2] at h₁
      exact absurd (List.mem_append_right c List.mem_cons_self) h₁
  · cases c with
    | nil => exact ⟨List.append_nil l₂, (List.cons.inj hc).2.symm⟩
    | cons b c =>
      rw [(List.cons.inj hc).2] at h₂
      exact absurd (List.mem_append_right c List.mem_cons_self) h₂

end Text
