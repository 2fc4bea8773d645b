import EliteEvents.Lib.Glob

/-! Where text may be cut. UTF-8 and UTF-16 both tell the start of a character from its middle, so a
well-formed text is found in the bytes of another exactly where it stands in the text. -/

namespace Text

theorem length_utf16_unit (u : UInt16) :
    (utf16 (if isPlain u then Char.ofNat u.toNat else replacement)).length = 1 := by
  split_ifs with h
  · rw [utf16_ofNat_plain h]
    rfl
  · rfl

/-- An unpaired surrogate takes one code unit, and so does what replaces it. -/
theorem length_wire (s : Str) : (wire s).length = s.length := by
  induction s using scalars.induct with
  | case1 => rfl
  | case2 u => simp [wire, scalars, ofChars, length_utf16_unit]
  | case3 u v s h ih =>
    simp only [Bool.and_eq_true] at h
    have hlen : (utf16 (pairChar u v)).length = 2 := by
      rw [utf16_pairChar h.1 h.2]
      rfl
    rw [wire, scalars_pair h.1 h.2, ofChars, List.flatMap_cons, List.length_append, hlen, ← ofChars, ← wire, ih]
    simp only [List.length_cons]
    omega
  | case4 u v s h ih =>
    have hw : wire (u :: v :: s) =
        utf16 (if isPlain u then Char.ofNat u.toNat else replacement) ++ wire (v :: s) := by
      simp only [wire, scalars, h, Bool.false_eq_true, if_false, ofChars, List.flatMap_cons]
    rw [hw, List.length_append, length_utf16_unit, ih]
    simp only [List.length_cons]
    omega

/-- A well-formed text that is cut before a code unit that completes no pair is well formed on both sides. -/
theorem WellFormed.of_append {a b : Str} {c : UInt16} (hc : isLow c = false)
    (h : WellFormed (a ++ c :: b)) : WellFormed a ∧ WellFormed (c :: b) := by
  unfold WellFormed at h ⊢
  rw [wire_append a hc] at h
  exact List.append_inj h (length_wire a)

/-- The parts between separators of a well-formed text are well formed. -/
theorem WellFormed.splitOn {sep : UInt16} (hsep : isPlain sep = true) {s p : Str} (h : WellFormed s)
    (hp : p ∈ s.splitOn sep) : WellFormed p := by
  induction hn : s.length using Nat.strong_induction_on generalizing s with
  | _ n ih =>
    by_cases hmem : sep ∈ s
    · obtain ⟨a, b, rfl, ha⟩ := List.eq_append_cons_of_mem hmem
      obtain ⟨hwa, hwb⟩ := h.of_append (isPlain_low_false hsep)
      have hb : WellFormed b := by
        unfold WellFormed at hwb ⊢
        rw [wire_cons_plain hsep] at hwb
        exact (List.cons.inj hwb).2
      rw [List.splitOn_append_cons_self_of_not_mem ha] at hp
      rcases List.mem_cons.mp hp with rfl | hp
      · exact hwa
      · refine ih b.length ?_ hb hp rfl
        rw [← hn, List.length_append, List.length_cons]
        omega
    · rw [List.splitOn_eq_singleton hmem, List.mem_singleton] at hp
      rwa [hp]

/-! Codes that say where a word starts. -/

section Code

variable {α β : Type} {e : α → List β} {lead : β → Prop}

/-- Every word starts with a unit of a kind that does not occur in its middle, and no word goes on from another. -/
structure SelfSynchronising (e : α → List β) (lead : β → Prop) : Prop where
  word : ∀ a, ∃ b t, e a = b :: t ∧ lead b ∧ ∀ x ∈ t, ¬ lead x
  read : ∀ {a a' : α} {r r' : List β}, e a ++ r = e a' ++ r' → a = a'

theorem SelfSynchronising.prefix_iff (h : SelfSynchronising e lead) {p c : List α} :
    p.flatMap e <+: c.flatMap e ↔ p <+: c := by
  constructor
  · intro hp
    induction p generalizing c with
    | nil => exact List.nil_prefix
    | cons a p ih =>
      obtain ⟨r, hr⟩ := hp
      rw [List.flatMap_cons, List.append_assoc] at hr
      cases c with
      | nil =>
        obtain ⟨b, t, hw, -⟩ := h.word a
        rw [hw] at hr
        cases hr
      | cons a' c =>
        rw [List.flatMap_cons] at hr
        cases h.read hr
        exact List.cons_prefix_cons.mpr ⟨rfl, ih ⟨r, List.append_cancel_left hr⟩⟩
  · intro hp
    obtain ⟨r, rfl⟩ := hp
    rw [List.flatMap_append]
    exact List.prefix_append _ _

/-- Where a unit that starts words stands, a word starts. -/
theorem SelfSynchronising.cut (h : SelfSynchronising e lead) {c : List α} {x z : List β} {b : β} (hb : lead b)
    (hc : c.flatMap e = x ++ b :: z) : ∃ c₁ c₂, c = c₁ ++ c₂ ∧ c₂.flatMap e = b :: z := by
  induction c generalizing x with
  | nil => exact absurd hc (by simp)
  | cons a c ih =>
    obtain ⟨b', t, hw, -, ht⟩ := h.word a
    rw [List.flatMap_cons] at hc
    rcases List.append_eq_append_iff.mp hc with ⟨y, hx, hrest⟩ | ⟨y, hword, hrest⟩
    · obtain ⟨c₁, c₂, rfl, hc₂⟩ := ih hrest
      exact ⟨a :: c₁, c₂, rfl, hc₂⟩
    · cases y with
      | nil =>
        obtain ⟨c₁, c₂, rfl, hc₂⟩ := ih (x := []) hrest.symm
        exact ⟨a :: c₁, c₂, rfl, hc₂⟩
      | cons u y =>
        obtain ⟨rfl, rfl⟩ := List.cons.inj hrest
        cases x with
        | nil => exact ⟨[], a :: c, rfl, by rw [List.flatMap_cons, hword]; rfl⟩
        | cons v x =>
          -- the unit would stand in the middle of a word
          rw [hw, List.cons_append] at hword
          refine absurd hb (ht b ?_)
          rw [(List.cons.inj hword).2]
          exact List.mem_append_right x List.mem_cons_self

theorem SelfSynchronising.infix_iff (h : SelfSynchronising e lead) {p c : List α} :
    p.flatMap e <:+: c.flatMap e ↔ p <:+: c := by
  constructor
  · intro hp
    cases p with
    | nil => exact List.nil_infix
    | cons a p =>
      obtain ⟨x, y, hxy⟩ := hp
      obtain ⟨b, t, hw, hb, -⟩ := h.word a
      rw [List.append_assoc, List.flatMap_cons, hw] at hxy
      obtain ⟨c₁, c₂, rfl, hc₂⟩ := h.cut hb hxy.symm
      have hprefix : (a :: p).flatMap e <+: c₂.flatMap e := by
        rw [hc₂, List.flatMap_cons, hw]
        exact ⟨y, rfl⟩
      exact (h.prefix_iff.mp hprefix).isInfix.trans (List.suffix_append c₁ c₂).isInfix
  · intro hp
    obtain ⟨x, y, rfl⟩ := hp
    rw [List.flatMap_append, List.flatMap_append]
    exact ⟨_, _, rfl⟩

end Code

theorem selfSynchronising_utf16 : SelfSynchronising utf16 fun u => isLow u = false := by
  constructor
  · intro c
    unfold utf16
    split_ifs with h
    · refine ⟨_, [], rfl, ?_, fun x hx => by cases hx⟩
      have hu : (UInt16.ofNat c.toNat).toNat = c.toNat := by simp; omega
      have hvalid : c.toNat < 0xD800 ∨ 0xDFFF < c.toNat := by
        rcases c.valid with hv | hv
        · exact .inl hv
        · exact .inr hv.1
      simp only [isLow, hu, Bool.and_eq_false_iff, decide_eq_false_iff_not]
      omega
    · have hmax : c.toNat < 0x110000 := by
        rcases c.valid with hv | hv
        · exact lt_trans hv (by decide)
        · exact hv.2
      have hhi : (UInt16.ofNat (0xD800 + (c.toNat - 0x10000) / 0x400)).toNat =
          0xD800 + (c.toNat - 0x10000) / 0x400 := by simp; omega
      have hlo : (UInt16.ofNat (0xDC00 + (c.toNat - 0x10000) % 0x400)).toNat =
          0xDC00 + (c.toNat - 0x10000) % 0x400 := by simp; omega
      refine ⟨_, [_], rfl, ?_, fun x hx => ?_⟩
      · simp only [isLow, hhi, Bool.and_eq_false_iff, decide_eq_false_iff_not]
        omega
      · rw [List.mem_singleton.mp hx, Bool.not_eq_false]
        simp only [isLow, hlo, Bool.and_eq_true, decide_eq_true_eq]
        omega
  · intro c d r r' h
    have hs := congrArg scalars h
    rw [scalars_utf16, scalars_utf16] at hs
    exact (List.cons.inj hs).1

theorem selfSynchronising_utf8 : SelfSynchronising String.utf8EncodeChar UInt8.IsUTF8FirstByte := by
  constructor
  · intro c
    obtain ⟨b, t, hbt⟩ := List.exists_cons_of_ne_nil (String.utf8EncodeChar_ne_nil (c := c))
    refine ⟨b, t, hbt, ?_, fun x hx => ?_⟩
    · have hlen : 0 < (String.utf8EncodeChar c).length := by simp [hbt]
      have hfirst := (@UInt8.isUTF8FirstByte_getElem_utf8EncodeChar c 0 hlen).mpr rfl
      simpa [hbt] using hfirst
    · obtain ⟨i, hi, rfl⟩ := List.getElem_of_mem hx
      have hlen : i + 1 < (String.utf8EncodeChar c).length := by simp [hbt, hi]
      have hmiddle := (@UInt8.isUTF8FirstByte_getElem_utf8EncodeChar c (i + 1) hlen).not.mpr (by simp)
      simpa [hbt] using hmiddle
  · intro c d r r' h
    have hc := ByteArray.utf8DecodeChar?_utf8EncodeChar_append (b := r.toByteArray) (c := c)
    have hd := ByteArray.utf8DecodeChar?_utf8EncodeChar_append (b := r'.toByteArray) (c := d)
    rw [← List.toByteArray_append, h, List.toByteArray_append, hd] at hc
    exact (Option.some.inj hc).symm

/-- The bytes of a text start with those of another where the text does, as it reads after the encoding. -/
theorem utf8_prefix_iff {q s : Str} (hs : WellFormed s) : utf8 q <+: utf8 s ↔ wire q <+: s := by
  rw [utf8, utf8, selfSynchronising_utf8.prefix_iff, ← selfSynchronising_utf16.prefix_iff]
  show wire q <+: wire s ↔ wire q <+: s
  rw [show wire s = s from hs]

theorem utf8_infix_iff {q s : Str} (hs : WellFormed s) : utf8 q <:+: utf8 s ↔ wire q <:+: s := by
  rw [utf8, utf8, selfSynchronising_utf8.infix_iff, ← selfSynchronising_utf16.infix_iff]
  show wire q <:+: wire s ↔ wire q <:+: s
  rw [show wire s = s from hs]

/-! The bytes of a `String`. -/

theorem byteArray_toList_loop (b : ByteArray) (i : ℕ) (l : List UInt8) :
    ByteArray.toList.loop b i l = l.reverse ++ b.data.toList.drop i := by
  induction i, l using ByteArray.toList.loop.induct b with
  | case1 i l h ih =>
    have hi : i < b.data.toList.length := by simpa using h
    have hget : b.get! i = b.data.toList[i] := by
      rw [ByteArray.get!, Array.getElem_toList]
      exact getElem!_pos b.data i (by simpa using h)
    rw [ByteArray.toList.loop, if_pos h, ih, List.drop_eq_getElem_cons hi, hget, List.reverse_cons, List.append_assoc]
    rfl
  | case2 i l h =>
    rw [ByteArray.toList.loop, if_neg h, List.drop_eq_nil_of_le (by simpa using h), List.append_nil]

theorem toUTF8_toList (s : String) : s.toUTF8.toList = encode s.toList := by
  have hdata : s.toUTF8.data.toList = encode s.toList := by
    rw [String.toUTF8_eq_toByteArray, ← String.utf8Encode_toList, List.utf8Encode, List.toList_data_toByteArray]
    rfl
  rw [ByteArray.toList, byteArray_toList_loop, List.drop_zero, hdata]
  rfl

theorem mem_toUTF8 {s : String} {d : Char} (hd : d.toNat < 0x80) :
    UInt8.ofNat d.toNat ∈ s.toUTF8.toList ↔ d ∈ s.toList := by
  rw [toUTF8_toList, encode, List.mem_flatMap]
  constructor
  · intro h
    obtain ⟨c, hc, hmem⟩ := h
    rwa [← char_eq_of_mem hd hmem]
  · intro h
    exact ⟨d, h, by rw [utf8EncodeChar_ascii hd]; exact List.mem_singleton_self _⟩

theorem toUTF8_toList_injective : Function.Injective fun s : String => s.toUTF8.toList := by
  intro s t h
  have h : encode s.toList = encode t.toList := by
    rw [← toUTF8_toList, ← toUTF8_toList]
    exact h
  have hst := selfSynchronising_utf8.prefix_iff.mp (h ▸ List.prefix_rfl : encode s.toList <+: encode t.toList)
  have hts := selfSynchronising_utf8.prefix_iff.mp (h ▸ List.prefix_rfl : encode t.toList <+: encode s.toList)
  exact String.toList_inj.mp (hst.eq_of_length_le hts.length_le)

/-! Byte ranges. -/

/-- Between a prefix and the prefix with a unit above all others lie the lists that start with the prefix. -/
theorem between_iff_prefix {p s : List UInt8} (hs : ∀ b ∈ s, b < 0xFF) : p ≤ s ∧ s ≤ p ++ [0xFF] ↔ p <+: s := by
  induction p generalizing s with
  | nil =>
    refine iff_of_true ⟨List.nil_le s, ?_⟩ List.nil_prefix
    cases s with
    | nil => exact List.nil_le _
    | cons b s => exact List.cons_le_cons_iff.mpr (.inl (hs b List.mem_cons_self))
  | cons a p ih =>
    cases s with
    | nil => exact iff_of_false (fun h => h.1 (by simp)) (by simp)
    | cons b s =>
      rw [List.cons_append, List.cons_le_cons_iff, List.cons_le_cons_iff, List.cons_prefix_cons,
        ← ih fun c hc => hs c (List.mem_cons_of_mem _ hc)]
      constructor
      · intro h
        rcases h.1 with hab | ⟨rfl, hp⟩
        · rcases h.2 with hba | ⟨rfl, -⟩
          · exact absurd hab (UInt8.lt_asymm hba)
          · exact absurd hab (UInt8.lt_irrefl _)
        · exact ⟨rfl, hp, (h.2.resolve_left (UInt8.lt_irrefl _)).2⟩
      · intro h
        obtain ⟨rfl, hp, hs⟩ := h
        exact ⟨.inr ⟨rfl, hp⟩, .inr ⟨rfl, hs⟩⟩

theorem lt_of_mem_utf8EncodeChar {c : Char} {b : UInt8} (hb : b ∈ String.utf8EncodeChar c) : b < 0xFF := by
  have hmax : c.val.toNat < 0x110000 := by
    rcases c.valid with hv | hv
    · exact lt_trans hv (by decide)
    · exact hv.2
  have hbyte : ∀ n, n < 0xFF → UInt8.ofNat n < 0xFF := by
    intro n hn
    rw [UInt8.lt_iff_toNat_lt, UInt8.toNat_ofNat_of_lt' (lt_trans hn (by decide))]
    exact hn
  unfold String.utf8EncodeChar at hb
  simp only at hb
  split_ifs at hb <;> simp only [List.mem_cons, List.not_mem_nil, or_false] at hb
  · rw [hb]
    exact hbyte _ (by omega)
  · rcases hb with rfl | rfl <;> exact hbyte _ (by omega)
  · rcases hb with rfl | rfl | rfl <;> exact hbyte _ (by omega)
  · rcases hb with rfl | rfl | rfl | rfl <;> exact hbyte _ (by omega)

end Text
