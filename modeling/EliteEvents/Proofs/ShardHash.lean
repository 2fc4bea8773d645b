import EliteEvents.Lib.Mixing
import EliteEvents.Proofs.ShardPartition
import Mathlib.Algebra.Order.Floor.Div

/-! The hash that the shards are chosen by. Every step of it loses nothing: not of the running hash, and not of the
code unit it takes in. So one changed code unit changes the hash, and the digests fall evenly on the shards. -/

namespace EliteEvents

open Text Mixing

namespace MessageShardFilter

section Steps

theorem prime_injective : Function.Injective fun x : UInt32 => x * prime :=
  mul32_injective (b := 0x359C449B) (by decide)

/-- A turn of the loop loses nothing of the running hash. -/
theorem hashUnit_injective (c : UInt16) : Function.Injective fun hash => hashUnit hash c :=
  prime_injective.comp ((xor32_injective _).comp (prime_injective.comp (xor32_injective _)))

theorem finalize_injective : Function.Injective finalize := by
  have h16 := xorShift32_injective (k := 16) (by decide)
  have h13 := xorShift32_injective (k := 13) (by decide)
  have hfirst := mul32_injective (a := 0x85EBCA6B) (b := 0xA5CB9243) (by decide)
  have hsecond := mul32_injective (a := 0xC2B2AE35) (b := 0x7ED1B41D) (by decide)
  exact h16.comp (hsecond.comp (h13.comp (hfirst.comp h16)))

/-- The prime carries a difference in the low byte past it: the products of two words that differ there alone
differ further up. -/
theorem prime_spreads {a b : ℕ} (h : a / 256 = b / 256)
    (hp : a * 16777619 % 4294967296 / 256 = b * 16777619 % 4294967296 / 256) : a = b := by
  -- 16777619 is 2^24 + 403, so modulo 2^24 only 403 times the difference is left
  have hmod : ∃ k : ℤ, (403 * (a : ℤ) - 403 * b) + 16777216 * k < 256 ∧ -256 < (403 * (a : ℤ) - 403 * b) + 16777216 * k :=
    ⟨(a : ℤ) - b - 256 * ((a * 16777619 / 4294967296 : ℕ) - (b * 16777619 / 4294967296 : ℕ)), by omega, by omega⟩
  obtain ⟨k, hlt, hgt⟩ := hmod
  have hk : k = 0 := by omega
  subst hk
  omega

theorem xor_low_div (x : UInt32) (b : UInt8) : (x ^^^ b.toUInt32).toNat / 256 = x.toNat / 256 := by
  have hb : b.toNat / 2 ^ 8 = 0 := Nat.div_eq_of_lt b.toNat_lt
  rw [UInt32.toNat_xor, UInt8.toNat_toUInt32, show 256 = 2 ^ 8 from rfl, Nat.xor_div_two_pow, hb, Nat.xor_zero]

/-- A turn of the loop loses nothing of the code unit. -/
theorem hashUnit_unit_injective (hash : UInt32) : Function.Injective (hashUnit hash) := by
  intro c d h
  have hinner : (hash ^^^ c.toUInt8.toUInt32) * prime ^^^ (c >>> 8).toUInt8.toUInt32 =
      (hash ^^^ d.toUInt8.toUInt32) * prime ^^^ (d >>> 8).toUInt8.toUInt32 := prime_injective h
  have hlow : hash ^^^ c.toUInt8.toUInt32 = hash ^^^ d.toUInt8.toUInt32 := by
    have hhigh := congrArg (fun x => x.toNat / 256) hinner
    simp only [xor_low_div, UInt32.toNat_mul] at hhigh
    refine UInt32.toNat_inj.mp (prime_spreads ?_ hhigh)
    rw [xor_low_div, xor_low_div]
  rw [hlow] at hinner
  have hc : c.toUInt8.toUInt32 = d.toUInt8.toUInt32 := by
    rw [UInt32.xor_comm hash, UInt32.xor_comm hash] at hlow
    exact xor32_injective hash hlow
  have hd : (c >>> 8).toUInt8.toUInt32 = (d >>> 8).toUInt8.toUInt32 := by
    rw [UInt32.xor_comm _ (c >>> 8).toUInt8.toUInt32, UInt32.xor_comm _ (d >>> 8).toUInt8.toUInt32] at hinner
    exact xor32_injective _ hinner
  have hc' := congrArg UInt32.toNat hc
  have hd' := congrArg UInt32.toNat hd
  simp only [UInt8.toNat_toUInt32, UInt16.toNat_toUInt8, UInt16.toNat_shiftRight, Nat.shiftRight_eq_div_pow,
    show (8 : UInt16).toNat % 16 = 8 from rfl] at hc' hd'
  have hlt := c.toNat_lt
  have hlt' := d.toNat_lt
  exact UInt16.toNat_inj.mp (by omega)

end Steps

section Strings

/-- The rest of a string carries a difference of the running hash through. -/
theorem foldl_hashUnit_injective (s : Str) : Function.Injective fun hash => s.foldl hashUnit hash := by
  induction s with
  | nil => exact fun _ _ h => h
  | cons c s ih =>
    intro a b h
    exact hashUnit_injective c (ih h)

/-- Strings of equal length that differ in exactly one code unit. -/
def OneUnitApart (s t : Str) : Prop := s.length = t.length ∧ ∃! i : ℕ, s[i]? ≠ t[i]?

theorem foldl_hashUnit_ne {s t : Str} (h : OneUnitApart s t) (hash : UInt32) :
    s.foldl hashUnit hash ≠ t.foldl hashUnit hash := by
  induction s generalizing t hash with
  | nil =>
    obtain ⟨hlen, i, hi, -⟩ := h
    rw [List.eq_nil_of_length_eq_zero hlen.symm] at hi
    exact absurd rfl hi
  | cons c s ih =>
    obtain ⟨hlen, i, hi, honly⟩ := h
    obtain ⟨d, t, rfl⟩ := List.exists_cons_of_length_eq_add_one hlen.symm
    by_cases hcd : c = d
    · -- the difference is further on
      subst hcd
      have hpos : i ≠ 0 := by
        intro h0
        subst h0
        exact hi rfl
      obtain ⟨j, rfl⟩ := Nat.exists_eq_succ_of_ne_zero hpos
      refine ih ⟨Nat.succ.inj hlen, j, by simpa using hi, fun k hk => ?_⟩ (hashUnit hash c)
      exact Nat.succ.inj (honly (k + 1) (by simpa using hk))
    · have h0 : 0 = i := honly 0 (by simpa using hcd)
      have hrest : s = t := by
        refine List.ext_getElem? fun j => ?_
        by_contra hj
        have := honly (j + 1) (by simpa using hj)
        omega
      subst hrest
      exact fun he => hcd (hashUnit_unit_injective hash (foldl_hashUnit_injective s he))

/-- One changed code unit changes the hash, since every step of it loses nothing. -/
theorem one_changed_unit :
    (∀ c, Function.Injective fun hash => hashUnit hash c) ∧ (∀ hash, Function.Injective (hashUnit hash)) ∧
      Function.Injective finalize ∧ ∀ s t, OneUnitApart s t → stableHash s ≠ stableHash t :=
  ⟨hashUnit_injective, hashUnit_unit_injective, finalize_injective,
    fun _ _ h he => foldl_hashUnit_ne h offsetBasis (finalize_injective he)⟩

theorem one_changed_unit_letter :
    OneUnitApart [83, 111, 108] [83, 97, 108] ∧ stableHash [83, 111, 108] ≠ stableHash [83, 97, 108] := by
  have h : OneUnitApart [83, 111, 108] [83, 97, 108] := by
    refine ⟨rfl, 1, by decide, fun i hi => ?_⟩
    match i with
    | 0 => exact absurd rfl hi
    | 1 => rfl
    | i + 2 => exact absurd rfl hi
  exact ⟨h, one_changed_unit.2.2.2 _ _ h⟩

end Strings

section Shares

/-- How many of the digests a shard is assigned. -/
def share (f : MessageShardFilter) : ℕ :=
  ((Finset.range (2 ^ 32)).filter fun digest => f.ownsDigest (UInt32.ofNat digest) = true).card

theorem share_eq (f : MessageShardFilter) :
    f.share = 2 ^ 32 / f.count + if f.index < 2 ^ 32 % f.count then 1 else 0 := by
  rw [share, ← card_residue finalize_injective f.index_lt_count]
  simp only [ownsDigest_iff]

/-- The constructor takes every index below a count. -/
theorem create_ofNat {N i : ℕ} (hN : N < 2 ^ 31) (hi : i < N) :
    ∃ f, create (Int32.ofNat i) (Int32.ofNat N) = .ok f ∧ f.index = i ∧ f.count = N := by
  have hcount := Int32.toInt_ofNat_of_lt hN
  have hindex := Int32.toInt_ofNat_of_lt (hi.trans hN)
  unfold create
  rw [if_neg, dif_neg]
  · refine ⟨_, rfl, ?_, ?_⟩
    · exact Int32.toNatClampNeg_ofNat_of_lt (hi.trans hN)
    · exact Int32.toNatClampNeg_ofNat_of_lt hN
  · rw [not_or, Int32.lt_iff_toInt_lt, Int32.le_iff_toInt_le, hcount, hindex, Int32.toInt_zero]
    omega
  · rw [Int32.lt_iff_toInt_lt, hcount, Int32.toInt_one]
    omega

/-- The digests fall evenly on the shards, for every number of them. -/
theorem digests_spread_evenly :
    Function.Bijective finalize ∧ ∀ N i : ℕ, 1 ≤ N → N < 2 ^ 31 → i < N →
      ∃ f, create (Int32.ofNat i) (Int32.ofNat N) = .ok f ∧
        (∀ s, f.owns s = f.ownsDigest (s.foldl hashUnit offsetBasis)) ∧
        (f.share = 2 ^ 32 / N ∨ f.share = 2 ^ 32 ⌈/⌉ N) ∧ 0 < f.share := by
  refine ⟨bijective32 finalize_injective, fun N i hpos hN hi => ?_⟩
  obtain ⟨f, hf, hindex, hcount⟩ := create_ofNat hN hi
  have hshare := f.share_eq
  rw [hindex, hcount] at hshare
  have hfloor : 0 < 2 ^ 32 / N := Nat.div_pos (by omega) hpos
  refine ⟨f, hf, fun s => rfl, ?_, by omega⟩
  split_ifs at hshare with hlt
  · right
    have hparts := Nat.div_add_mod (2 ^ 32) N
    have hrest := Nat.mod_lt (2 ^ 32) (show 0 < N by omega)
    rw [hshare, Nat.ceilDiv_eq_add_pred_div]
    refine (Nat.div_eq_of_lt_le ?_ ?_).symm
    · rw [Nat.add_mul, Nat.mul_comm _ N]
      omega
    · rw [Nat.add_mul, Nat.add_mul, Nat.mul_comm _ N]
      omega
  · exact .inl hshare

theorem digests_spread_evenly_eight :
    ∃ f, create 3 8 = .ok f ∧ (f.share = 2 ^ 32 / 8 ∨ f.share = 2 ^ 32 ⌈/⌉ 8) ∧ 0 < f.share := by
  obtain ⟨f, hf, -, hshare⟩ := digests_spread_evenly.2 8 3 (by decide) (by decide) (by decide)
  exact ⟨f, hf, hshare⟩

end Shares

end MessageShardFilter

end EliteEvents
