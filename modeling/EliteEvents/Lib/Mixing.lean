import Mathlib.Data.Int.CardIntervalMod
import Mathlib.Tactic

/-! Mixing of machine words. Folding the high bits onto the low ones and multiplying by an odd constant lose
nothing, so a word is mixed one to one; and whatever is mixed one to one falls evenly into the residue classes. -/

namespace Mixing

/-- A shifted word is folded back from the top: bit by bit the folded word gives the word. -/
theorem xorShift_injective {w k : ℕ} (hk : 0 < k) : Function.Injective fun x : BitVec w => x ^^^ (x >>> k) := by
  intro x y h
  have hbit : ∀ i, (x.getLsbD i ^^ x.getLsbD (k + i)) = (y.getLsbD i ^^ y.getLsbD (k + i)) := by
    intro i
    have hi := congrArg (fun z => BitVec.getLsbD z i) h
    simpa only [BitVec.getLsbD_xor, BitVec.getLsbD_ushiftRight] using hi
  have hall : ∀ n i, w ≤ i + n → x.getLsbD i = y.getLsbD i := by
    intro n
    induction n with
    | zero =>
      intro i hi
      rw [BitVec.getLsbD_of_ge x i hi, BitVec.getLsbD_of_ge y i hi]
    | succ n ih =>
      intro i hi
      have hstep := hbit i
      rw [ih (k + i) (by omega)] at hstep
      exact Bool.xor_left_inj.mp hstep
  exact BitVec.eq_of_getLsbD_eq fun i _ => hall w i (by omega)

theorem xorShift32_injective {k : UInt32} (hk : 0 < k.toNat % 32) :
    Function.Injective fun x : UInt32 => x ^^^ (x >>> k) := by
  intro x y h
  have hb := congrArg UInt32.toBitVec h
  simp only [UInt32.toBitVec_xor, UInt32.toBitVec_shiftRight, BitVec.ushiftRight_eq'] at hb
  refine UInt32.toBitVec_inj.mp (xorShift_injective ?_ hb)
  rw [BitVec.toNat_umod]
  exact hk

theorem mul32_injective {a b : UInt32} (h : a * b = 1) : Function.Injective fun x : UInt32 => x * a := by
  intro x y hxy
  have hb := congrArg (· * b) hxy
  simpa only [UInt32.mul_assoc, h, UInt32.mul_one] using hb

theorem xor32_injective (c : UInt32) : Function.Injective fun x : UInt32 => x ^^^ c := by
  intro x y h
  refine UInt32.toBitVec_inj.mp ((BitVec.xor_left_inj c.toBitVec).mp ?_)
  exact congrArg UInt32.toBitVec h

/-- A word that is mixed one to one takes every value. -/
theorem bijective32 {f : UInt32 → UInt32} (h : Function.Injective f) : Function.Bijective f := by
  have : Finite UInt32 := Finite.of_injective UInt32.toFin fun _ _ => UInt32.toFin_inj.mp
  exact Finite.injective_iff_bijective.mp h

/-- The words that are mixed into a residue class are as many as the words in it. -/
theorem card_residue {f : UInt32 → UInt32} (h : Function.Injective f) {N i : ℕ} (hi : i < N) :
    ((Finset.range (2 ^ 32)).filter fun n => (f (UInt32.ofNat n)).toNat % N = i).card =
      2 ^ 32 / N + if i < 2 ^ 32 % N then 1 else 0 := by
  have hcount := Nat.count_modEq_card (b := 2 ^ 32) (show 0 < N by omega) i
  rw [Nat.mod_eq_of_lt hi, Nat.count_eq_card_filter_range] at hcount
  rw [← hcount]
  refine Finset.card_bij (fun n _ => (f (UInt32.ofNat n)).toNat) ?_ ?_ ?_
  · intro n hn
    refine Finset.mem_filter.mpr ⟨Finset.mem_range.mpr (UInt32.toNat_lt _), ?_⟩
    rw [Nat.ModEq, (Finset.mem_filter.mp hn).2, Nat.mod_eq_of_lt hi]
  · intro n hn m hm hnm
    have hword := h (UInt32.toNat_inj.mp hnm)
    have hlt := Finset.mem_range.mp (Finset.mem_filter.mp hn).1
    have hlt' := Finset.mem_range.mp (Finset.mem_filter.mp hm).1
    have := congrArg UInt32.toNat hword
    rwa [UInt32.toNat_ofNat_of_lt' hlt, UInt32.toNat_ofNat_of_lt' hlt'] at this
  · intro m hm
    obtain ⟨hrange, hmod⟩ := Finset.mem_filter.mp hm
    have hlt := Finset.mem_range.mp hrange
    obtain ⟨x, hx⟩ := (bijective32 h).2 (UInt32.ofNat m)
    have hfx : (f (UInt32.ofNat x.toNat)).toNat = m := by
      rw [UInt32.ofNat_toNat, hx, UInt32.toNat_ofNat_of_lt' hlt]
    refine ⟨x.toNat, Finset.mem_filter.mpr ⟨Finset.mem_range.mpr x.toNat_lt, ?_⟩, hfx⟩
    rw [hfx]
    exact Nat.mod_eq_of_modEq hmod hi

end Mixing
