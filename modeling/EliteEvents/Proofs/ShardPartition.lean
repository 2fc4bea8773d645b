import EliteEvents.Spec.ShardFilter

/-! The filters of one shard count partition the feed: ownership is a residue class of
the message hash, the shortcut for a single shard included. Filters of different counts
can share a message only if their indexes agree modulo the gcd of the counts. -/

namespace EliteEvents

open Text

namespace MessageShardFilter

/-- The index and the count, as the non-negative numbers the constructor made sure of. -/
def index (f : MessageShardFilter) : ℕ := f.shardIndex.toNatClampNeg
def count (f : MessageShardFilter) : ℕ := f.shardCount.toNatClampNeg

theorem count_nonneg (f : MessageShardFilter) : 0 ≤ f.shardCount :=
  Int32.le_trans f.index_nonneg (Int32.le_of_lt f.index_lt)

theorem index_lt_count (f : MessageShardFilter) : f.index < f.count := by
  have h0 := Int32.le_iff_toInt_le.mp f.index_nonneg
  have h1 := Int32.lt_iff_toInt_lt.mp f.index_lt
  rw [Int32.toInt_zero] at h0
  unfold index count Int32.toNatClampNeg
  omega

/-- `Owns`, from the digest that the loop left. -/
def ownsDigest (f : MessageShardFilter) (digest : UInt32) : Bool :=
  if f.shardCount = 1 then true
  else finalize digest % f.shardCount.toUInt32 == f.shardIndex.toUInt32

theorem ownsDigest_iff (f : MessageShardFilter) (digest : UInt32) :
    f.ownsDigest digest = true ↔ (finalize digest).toNat % f.count = f.index := by
  unfold ownsDigest
  split_ifs with h
  · have hc : f.count = 1 := by rw [count, h]; rfl
    have hi := f.index_lt_count
    rw [hc] at hi ⊢
    simp only [Nat.mod_one, true_iff]
    omega
  · rw [beq_iff_eq, ← UInt32.toNat_inj, UInt32.toNat_mod,
      Int32.toNat_toUInt32_of_le f.count_nonneg, Int32.toNat_toUInt32_of_le f.index_nonneg]
    rfl

theorem owns_iff (f : MessageShardFilter) (s : Str) :
    f.owns s = true ↔ (stableHash s).toNat % f.count = f.index :=
  f.ownsDigest_iff (s.foldl hashUnit offsetBasis)

example : stableHash (lit "") = 0xAB3E7C0B := by decide
example : stableHash (lit "a") = 0x91E9DA27 := by decide
example : stableHash (lit "foobar") = 0xCFCADD06 := by decide

/-- Two filters of one count that own the same message have the same index. -/
theorem index_eq_of_owns {f g : MessageShardFilter} (hc : f.count = g.count) {s : Str}
    (hf : f.owns s = true) (hg : g.owns s = true) : f.index = g.index := by
  rw [owns_iff] at hf hg
  rw [← hf, ← hg, hc]

/-- A message two filters share pins their indexes to one class modulo the gcd. -/
theorem index_modEq_of_owns {f g : MessageShardFilter} {s : Str} (hf : f.owns s = true)
    (hg : g.owns s = true) : f.index ≡ g.index [MOD Nat.gcd f.count g.count] := by
  rw [owns_iff] at hf hg
  have h1 : (stableHash s).toNat ≡ f.index [MOD f.count] := by
    rw [← hf]; exact (Nat.mod_modEq _ _).symm
  have h2 : (stableHash s).toNat ≡ g.index [MOD g.count] := by
    rw [← hg]; exact (Nat.mod_modEq _ _).symm
  exact ((h1.of_dvd (Nat.gcd_dvd_left _ _)).symm).trans (h2.of_dvd (Nat.gcd_dvd_right _ _))

end MessageShardFilter

/-- A complete set of filters: index `k` of `n`, for every `k < n`. -/
def Partition (n : ℕ) (filter : Fin n → MessageShardFilter) : Prop :=
  ∀ k, (filter k).index = k.val ∧ (filter k).count = n

theorem Partition.owner_unique {n : ℕ} {filter : Fin n → MessageShardFilter}
    (h : Partition n filter) (hn : 0 < n) (s : Str) : ∃! k, (filter k).owns s = true := by
  refine ⟨⟨(MessageShardFilter.stableHash s).toNat % n, Nat.mod_lt _ hn⟩, ?_,
    fun k (hk : (filter k).owns s = true) => ?_⟩
  · show (filter _).owns s = true
    rw [MessageShardFilter.owns_iff, (h _).1, (h _).2]
  · rw [MessageShardFilter.owns_iff, (h k).1, (h k).2] at hk
    exact Fin.ext hk.symm

end EliteEvents
