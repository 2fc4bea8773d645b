import EliteEvents.Proofs.ShardPartition
import EliteEvents.Spec.Ingestion

/-! What the builders write is read back as what went in: shard labels by the operator,
shard settings by the consumer. -/

namespace EliteEvents

theorem itoa_injective : Function.Injective itoa := Decimal.toString_injective

theorem toList_itoa (n : ℤ) : (itoa n).toList = Decimal.render n := Decimal.toList_toString n

theorem shardDeploymentName_injective (feed : String) :
    Function.Injective (shardDeploymentName feed) := by
  intro j k h
  have hl := congrArg String.toList h
  simp only [shardDeploymentName, String.toList_append] at hl
  have hi := itoa_injective (String.toList_inj.mp (List.append_cancel_left hl))
  omega

theorem isSpace_digit {c : Char} (h : c.isDigit = true ∨ c = '-') : isSpace c = false := by
  have hr : c.toNat ≠ 0x09 ∧ c.toNat ≠ 0x0A ∧ c.toNat ≠ 0x0B ∧ c.toNat ≠ 0x0C ∧ c.toNat ≠ 0x0D ∧
      c.toNat ≠ 0x20 ∧ c.toNat < 0x80 := by
    rcases h with h | rfl
    · simp only [Char.isDigit, Bool.and_eq_true, decide_eq_true_eq, UInt32.le_iff_toNat_le] at h
      have h1 : 48 ≤ c.toNat := h.1
      have h2 : c.toNat ≤ 57 := h.2
      omega
    · decide
  simp only [isSpace, Bool.or_eq_false_iff, decide_eq_false_iff_not, Bool.and_eq_false_iff,
    List.mem_cons, List.not_mem_nil, or_false]
  omega

theorem render_no_space (n : ℤ) : ∀ c ∈ Decimal.render n, isSpace c = false := by
  have hd : ∀ m : ℕ, ∀ c ∈ Nat.toDigits 10 m, isSpace c = false := fun m c hc =>
    isSpace_digit (.inl (Nat.isDigit_of_mem_toDigits (by decide) (by decide) hc))
  cases n with
  | ofNat m => exact hd m
  | negSucc m =>
    intro c hc
    rcases List.mem_cons.mp hc with rfl | hc
    · exact isSpace_digit (.inr rfl)
    · exact hd _ c hc

theorem dropWhile_of_forall {p : Char → Bool} {cs : List Char} (h : ∀ c ∈ cs, p c = false) :
    cs.dropWhile p = cs := by
  cases cs with
  | nil => rfl
  | cons c cs => simp [h c List.mem_cons_self]

theorem trimSpace_itoa (n : ℤ) : trimSpace (itoa n).toList = Decimal.render n := by
  have h := render_no_space n
  rw [toList_itoa, trimSpace, dropWhile_of_forall h,
    dropWhile_of_forall fun c hc => h c (List.mem_reverse.mp hc), List.reverse_reverse]

theorem bindInt_itoa {env : Labels} {key : String} {n : ℤ} (h : env.lookup key = some (itoa n))
    (hn : -2 ^ 31 ≤ n ∧ n < 2 ^ 31) (initial : Int32) :
    EddnOptions.bindInt env key initial = .ok (Int32.ofInt n) := by
  simp only [EddnOptions.bindInt, h, trimSpace_itoa, Decimal.parse_render, if_pos hn]

theorem toInt_ofInt {n : ℤ} (h : -2 ^ 31 ≤ n ∧ n < 2 ^ 31) : (Int32.ofInt n).toInt = n := by
  exact Int32.toInt_ofInt_of_le h.1 h.2

/-- A consumer whose environment says shard `i` of `n` filters for just that. -/
theorem shardFilter_of_env {env : Labels} {i n : ℕ}
    (hi : env.lookup shardIndexEnvVar = some (itoa i)) (hn : env.lookup shardCountKey = some (itoa n))
    (hlt : i < n) (hmax : n < 2 ^ 31) :
    ∃ f, shardFilter env = .ok f ∧ f.index = i ∧ f.count = n := by
  have hri : -2 ^ 31 ≤ (i : ℤ) ∧ (i : ℤ) < 2 ^ 31 := ⟨by omega, by omega⟩
  have hrn : -2 ^ 31 ≤ (n : ℤ) ∧ (n : ℤ) < 2 ^ 31 := ⟨by omega, by omega⟩
  have hti := toInt_ofInt hri
  have htn := toInt_ofInt hrn
  have hcount : ¬ Int32.ofInt n < 1 := by
    rw [Int32.lt_iff_toInt_lt, htn, Int32.toInt_one]
    omega
  have hindex : ¬ (Int32.ofInt i < 0 ∨ Int32.ofInt n ≤ Int32.ofInt i) := by
    rw [Int32.lt_iff_toInt_lt, Int32.le_iff_toInt_le, hti, htn, Int32.toInt_zero]
    omega
  refine ⟨⟨Int32.ofInt i, Int32.ofInt n, Int32.not_lt.mp (not_or.mp hindex).1,
    Int32.not_le.mp (not_or.mp hindex).2⟩, ?_, ?_, ?_⟩
  · simp only [shardFilter, EddnOptions.ofEnv, bindInt_itoa hi hri, bindInt_itoa hn hrn, bind,
      Except.bind, pure, Except.pure, MessageShardFilter.create, if_neg hcount, dif_neg hindex]
    rfl
  · rw [MessageShardFilter.index, Int32.toNatClampNeg, hti, Int.toNat_natCast]
  · rw [MessageShardFilter.count, Int32.toNatClampNeg, htn, Int.toNat_natCast]

/-! Which of the feed's selectors match which of its labels. -/

theorem matches_iff {sel labels : Labels} :
    sel.matches labels = true ↔ ∀ p ∈ sel, labels.lookup p.1 = some p.2 := by
  simp only [Labels.matches, List.all_eq_true, decide_eq_true_eq]

theorem selector_shard (feed : String) (k : ℕ) :
    (selectorLabels feed).matches (shardLabels feed k) = true := by
  rw [matches_iff, selectorLabels]
  simp only [List.mem_cons, List.not_mem_nil, or_false]
  rintro p (rfl | rfl) <;> rfl

theorem shardSelector_shard (feed : String) (k : ℕ) :
    (shardSelectorLabels feed k).matches (shardLabels feed k) = true := by
  rw [matches_iff, shardSelectorLabels, selectorLabels]
  simp only [List.cons_append, List.nil_append, List.mem_cons, List.not_mem_nil, or_false]
  rintro p (rfl | rfl | rfl) <;> rfl

theorem maintenance_maintenance (feed : String) :
    (maintenanceLabels feed).matches (maintenanceLabels feed) = true := by
  rw [matches_iff, maintenanceLabels]
  simp only [List.mem_cons, List.not_mem_nil, or_false]
  rintro p (rfl | rfl | rfl | rfl) <;> rfl

/-- Labels with another application name do not match. -/
theorem matches_name_ne {sel labels : Labels} {a b : String} (hs : (nameLabel, a) ∈ sel)
    (hl : labels.lookup nameLabel = some b) (hne : a ≠ b) : sel.matches labels = false := by
  rw [Bool.eq_false_iff]
  intro h
  have := matches_iff.mp h _ hs
  rw [hl] at this
  exact hne (Option.some.inj this).symm

theorem selector_maintenance (feed : String) :
    (selectorLabels feed).matches (maintenanceLabels feed) = false :=
  matches_name_ne List.mem_cons_self (b := "feed-maintenance") rfl (by decide)

theorem selector_drain (feed : String) : (selectorLabels feed).matches (drainLabels feed) = false :=
  matches_name_ne List.mem_cons_self (b := "feed-drain") rfl (by decide)

theorem maintenance_drain (feed : String) :
    (maintenanceLabels feed).matches (drainLabels feed) = false :=
  matches_name_ne List.mem_cons_self (b := "feed-drain") rfl (by decide)

/-- The number of consumers a spec asks for. -/
def FeedListenerSpec.shards (spec : FeedListenerSpec) : ℕ := spec.consumers.toNatClampNeg

theorem shards_lt (spec : FeedListenerSpec) : spec.shards < 2 ^ 31 := by
  have h := spec.consumers.toInt_lt
  unfold FeedListenerSpec.shards Int32.toNatClampNeg
  omega

theorem consumers_eq {spec : FeedListenerSpec} (h : 1 ≤ spec.consumers) :
    spec.consumers.toInt = spec.shards := by
  have h1 := Int32.le_iff_toInt_le.mp h
  rw [Int32.toInt_one] at h1
  unfold FeedListenerSpec.shards Int32.toNatClampNeg
  omega

theorem lookup_shardCount (spec : FeedListenerSpec) :
    (buildConfigData spec).lookup shardCountKey = some (itoa spec.consumers.toInt) := rfl

/-- Every shard of a spec comes up, with its own index and the shared count. -/
theorem shardFilter_shardEnv (fl : FeedListener) (h : 1 ≤ fl.spec.consumers) {k : ℕ}
    (hk : k < fl.spec.shards) (configHash : String) :
    ∃ f, shardFilter (shardEnv fl k configHash) = .ok f ∧ f.index = k ∧ f.count = fl.spec.shards := by
  refine shardFilter_of_env rfl ?_ hk (shards_lt fl.spec)
  rw [← consumers_eq h]
  exact lookup_shardCount fl.spec

end EliteEvents
