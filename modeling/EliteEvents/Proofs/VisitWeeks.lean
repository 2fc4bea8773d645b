import EliteEvents.Lib.RedisLemmas
import EliteEvents.Lib.Runs
import EliteEvents.Spec.WeeklyReset

/-! The visit counts over the weeks. The reset is computed by the client when it builds the batch, and applied
to the whole key when the server comes to it: an EXPIRE that is late by then deletes what the new week has
counted. -/

namespace EliteEvents

open Text Redis RedisKeys WeeklyExpirationCalculator

/-! The calendar. -/

theorem weekOf_mono {t t' : ℕ} (h : t ≤ t') : weekOf t ≤ weekOf t' :=
  Nat.div_le_div_right (Nat.add_le_add_right h _)

/-- A reset is the first instant of its week. -/
theorem getNextExpirationUtc_le_iff (c t : ℕ) : getNextExpirationUtc c ≤ t ↔ weekOf c < weekOf t := by
  unfold getNextExpirationUtc weekOf week firstReset
  omega

namespace VisitWorld

/-- The visits to a system since the last reset. -/
def thisWeek (w : VisitWorld) (m : Str) : ℕ :=
  w.counted.countP fun v => decide (weekOf v.1 = weekOf w.now ∧ v.2 = m)

/-- Every visit since the last reset is still counted. -/
def AllCounted (w : VisitWorld) : Prop :=
  ∀ m, (w.thisWeek m : ℤ) ≤ (w.store.zscore (wire systemVisits) m).getD 0

/-- Steps that lose no visit. An EXPIRE runs before the reset it was computed for, unless nothing has been
counted since; and the clock does not leave the very millisecond of a reset with a visit counted in it while
the key still has that reset for its deadline. -/
def Timely (w : VisitWorld) : VisitAction → Prop
  | .tick t => ∀ v ∈ w.counted, w.store.deadline (wire systemVisits) = some v.1 → v.1 < t →
    weekOf v.1 ≠ weekOf t
  | .submit _ => True
  | .command i => ∀ f, w.flights[i]? = some f → f.sent = 1 → weekOf f.created < weekOf w.now →
    ∀ v ∈ w.counted, weekOf v.1 ≠ weekOf w.now

/-- What holds between the counts, the key and the clock. -/
structure Booked (w : VisitWorld) : Prop where
  sorted : ∃ z, w.store.zset (wire systemVisits) = .ok z
  reset : ∀ d, w.store.deadline (wire systemVisits) = some d → w.now ≤ d ∧ ∃ c, d = getNextExpirationUtc c
  past : ∀ v ∈ w.counted, v.1 ≤ w.now
  counted : w.AllCounted

section Steps

variable {I : Casing} {w w' : VisitWorld}

theorem booked_initial (now : Time) : Booked (initial now) where
  sorted := ⟨∅, rfl⟩
  reset := fun _ h => by cases h
  past := fun _ h => by cases h
  counted := fun _ => le_rfl

/-- Nothing is counted in a week that has no visits. -/
theorem thisWeek_eq_zero (h : ∀ v ∈ w.counted, weekOf v.1 ≠ weekOf w.now) (m : Str) : w.thisWeek m = 0 := by
  refine List.countP_eq_zero.mpr fun v hv => ?_
  rw [decide_eq_true_eq]
  exact fun hm => h v hv hm.1

/-- With the key gone, all is counted exactly if the week has no visits. -/
theorem allCounted_of_missing (h : ∀ m, w.store.zscore (wire systemVisits) m = none) :
    w.AllCounted ↔ ∀ v ∈ w.counted, weekOf v.1 ≠ weekOf w.now := by
  constructor
  · intro hall v hv hweek
    have hle := hall v.2
    rw [h, Option.getD_none] at hle
    have hpos : 0 < w.thisWeek v.2 := List.countP_pos_iff.mpr ⟨v, hv, decide_eq_true ⟨hweek, rfl⟩⟩
    omega
  · intro hnone m
    rw [thisWeek_eq_zero hnone, h]
    exact le_rfl

theorem zscore_of_missing {σ : Store} {k : Str} (h : σ.lookup k = none) (m : Str) : σ.zscore k m = none := by
  rw [Store.zscore, Store.val, h]
  rfl

theorem zscore_congr {σ σ' : Store} {k : Str} (h : σ'.lookup k = σ.lookup k) (m : Str) :
    σ'.zscore k m = σ.zscore k m := by
  rw [Store.zscore, Store.val, h, Store.zscore, Store.val]

/-- Time passes: all stays counted exactly if the tick is timely. -/
theorem Booked.tick (h : Booked w) {t : Time} (ht : w.now ≤ t) :
    (AllCounted { w with now := t, store := w.store.purge t } ↔ w.Timely (.tick t)) ∧
      (w.Timely (.tick t) → Booked { w with now := t, store := w.store.purge t }) := by
  have hpast : ∀ v ∈ w.counted, v.1 ≤ t := fun v hv => (h.past v hv).trans ht
  by_cases hlapse : ∃ d, w.store.deadline (wire systemVisits) = some d ∧ d < t
  · obtain ⟨d, hd, hdt⟩ := hlapse
    obtain ⟨hnow, c, hc⟩ := h.reset d hd
    have hgone : (w.store.purge t).lookup (wire systemVisits) = none := by
      by_contra hs
      obtain ⟨e, he⟩ := Option.ne_none_iff_exists'.mp hs
      have hsome : ((w.store.purge t).val (wire systemVisits)).isSome := by
        rw [Store.val, he]
        rfl
      have hdead : (w.store.purge t).deadline (wire systemVisits) = some d := by
        rw [Store.deadline, lookup_purge_of_isSome hsome]
        exact hd
      exact absurd (deadline_purge hdead).2 (not_le.mpr hdt)
    have hiff : (∀ v ∈ w.counted, weekOf v.1 ≠ weekOf t) ↔ w.Timely (.tick t) := by
      constructor
      · exact fun hall v hv _ _ => hall v hv
      · -- a visit of the week of `t` ran no earlier than the reset and no later than now
        intro htimely v hv hweek
        have hdweek : weekOf d = weekOf t :=
          le_antisymm (weekOf_mono hdt.le) (hweek ▸ weekOf_mono ((h.past v hv).trans hnow))
        have hle : d ≤ v.1 := by
          rw [hc, getNextExpirationUtc_le_iff, hweek, ← hdweek, ← getNextExpirationUtc_le_iff, ← hc]
        have hvd : v.1 = d := le_antisymm ((h.past v hv).trans hnow) hle
        exact htimely v hv (by rw [hvd, hd]) (hvd ▸ hdt) hweek
    have hcounted := allCounted_of_missing (w := { w with now := t, store := w.store.purge t })
      (zscore_of_missing hgone)
    refine ⟨hcounted.trans hiff, fun htimely => ⟨?_, fun d' hd' => ?_, hpast, ?_⟩⟩
    · exact ⟨∅, Store.zset_of_missing hgone⟩
    · rw [Store.deadline, hgone] at hd'
      cases hd'
    · exact hcounted.mpr (hiff.mpr htimely)
  · have hsame : (w.store.purge t).lookup (wire systemVisits) = w.store.lookup (wire systemVisits) :=
      lookup_purge_of_deadline fun d hd => not_lt.mp fun hlt => hlapse ⟨d, hd, hlt⟩
    have hcounted : AllCounted { w with now := t, store := w.store.purge t } := by
      intro m
      rw [zscore_congr hsame]
      by_cases hweek : weekOf t = weekOf w.now
      · have heq : thisWeek { w with now := t, store := w.store.purge t } m = w.thisWeek m := by
          unfold thisWeek
          simp only [hweek]
        rw [heq]
        exact h.counted m
      · have hzero : thisWeek { w with now := t, store := w.store.purge t } m = 0 := by
          refine thisWeek_eq_zero (fun v hv hv' => hweek ?_) m
          exact le_antisymm (hv' ▸ weekOf_mono (h.past v hv)) (weekOf_mono ht)
        rw [hzero]
        exact (Int.natCast_nonneg (w.thisWeek m)).trans (h.counted m)
    have htimely : w.Timely (.tick t) := fun v _ hd hlt => absurd ⟨v.1, hd, hlt⟩ hlapse
    refine ⟨iff_of_true hcounted htimely, fun _ => ⟨?_, fun d hd => ?_, hpast, hcounted⟩⟩
    · obtain ⟨z, hz⟩ := h.sorted
      exact ⟨z, (Store.zset_congr hsame).trans hz⟩
    · rw [Store.deadline, hsame] at hd
      exact ⟨not_lt.mp fun hlt => hlapse ⟨d, hd, hlt⟩, (h.reset d hd).2⟩

/-- A ZINCRBY counts its visit and takes nothing away. -/
theorem Booked.increment (h : Booked w) (m : Str) (flights : List VisitFlight) :
    Booked { w with store := (Cmd.zincrby (wire systemVisits) 1 m).apply w.now w.store,
                    flights := flights, counted := (w.now, m) :: w.counted } := by
  obtain ⟨z, hz⟩ := h.sorted
  have hrun : (Cmd.zincrby (wire systemVisits) 1 m).run w.now w.store =
      .ok (w.store.put (wire systemVisits) (.zset (z.insert m ((z.lookup m).getD 0 + 1)))) := by
    rw [Cmd.run, hz]
    rfl
  have happly : (Cmd.zincrby (wire systemVisits) 1 m).apply w.now w.store =
      w.store.put (wire systemVisits) (.zset (z.insert m ((z.lookup m).getD 0 + 1))) := by
    rw [Cmd.apply, hrun]
  have hdead : (w.store.put (wire systemVisits) (.zset (z.insert m ((z.lookup m).getD 0 + 1)))).deadline
      (wire systemVisits) = w.store.deadline (wire systemVisits) :=
    deadline_put_eq isEmpty_zset_insert _
  rw [happly]
  refine ⟨?_, fun d hd => h.reset d (hdead ▸ hd), fun v hv => ?_, fun m' => ?_⟩
  · rw [Store.zset, Store.val_put_self]
    split_ifs
    · exact ⟨∅, rfl⟩
    · exact ⟨_, rfl⟩
  · rcases List.mem_cons.mp hv with rfl | hv
    · exact le_rfl
    · exact h.past v hv
  · rw [score_run hrun trivial (fun es => by simp)]
    have hold := h.counted m'
    show ((List.countP _ (_ :: w.counted) : ℕ) : ℤ) ≤ _
    rw [List.countP_cons]
    unfold thisWeek at hold
    by_cases hm : m = m'
    · simp only [Cmd.scoreAdds, hm, and_self, decide_true, if_true]
      push_cast
      omega
    · simp only [Cmd.scoreAdds, hm, and_false, decide_false, Bool.false_eq_true, if_false]
      omega

/-- An EXPIRE keeps all counted exactly if it is timely. -/
theorem Booked.expire (h : Booked w) (created : Time) (flights : List VisitFlight) {w' : VisitWorld}
    (hw' : w' = { w with
      store := (Cmd.expireAt (wire systemVisits) (getNextExpirationUtc created)).apply w.now w.store,
      flights := flights }) :
    (w'.AllCounted ↔ (weekOf created < weekOf w.now → ∀ v ∈ w.counted, weekOf v.1 ≠ weekOf w.now)) ∧
      (w'.AllCounted → Booked w') := by
  subst hw'
  have happly : (Cmd.expireAt (wire systemVisits) (getNextExpirationUtc created)).run w.now w.store =
      .ok ((Cmd.expireAt (wire systemVisits) (getNextExpirationUtc created)).apply w.now w.store) := rfl
  generalize (Cmd.expireAt (wire systemVisits) (getNextExpirationUtc created)).apply w.now w.store = σ at happly ⊢
  by_cases hlate : weekOf created < weekOf w.now
  · -- the reset is past: the key is deleted
    have hgone : σ.lookup (wire systemVisits) = none := by
      cases hl : w.store.lookup (wire systemVisits) with
      | none =>
        simp only [Cmd.run, hl, Except.ok.injEq] at happly
        rw [← happly, hl]
      | some e =>
        rw [(lookup_expireAt happly hl).1, if_pos ((getNextExpirationUtc_le_iff _ _).mpr hlate)]
    have hcounted := allCounted_of_missing (w := { w with store := σ, flights := flights })
      (zscore_of_missing hgone)
    refine ⟨hcounted.trans ⟨fun hall _ => hall, fun hall => hall hlate⟩, fun hall => ⟨?_, fun d hd => ?_, h.past, hall⟩⟩
    · exact ⟨∅, Store.zset_of_missing hgone⟩
    · rw [Store.deadline, hgone] at hd
      cases hd
  · have hahead : ¬ getNextExpirationUtc created ≤ w.now := fun hle =>
      hlate ((getNextExpirationUtc_le_iff _ _).mp hle)
    have hval : σ.val (wire systemVisits) = w.store.val (wire systemVisits) :=
      run_val_of_target_ne happly (fun _ => not_le.mp hahead) (by simp [Cmd.target])
    have hcounted : AllCounted { w with store := σ, flights := flights } := by
      intro m
      rw [Store.zscore, hval]
      exact h.counted m
    refine ⟨iff_of_true hcounted fun hl => absurd hl hlate, fun _ => ⟨?_, fun d hd => ?_, h.past, hcounted⟩⟩
    · obtain ⟨z, hz⟩ := h.sorted
      refine ⟨z, ?_⟩
      rw [Store.zset, hval]
      exact hz
    · cases hl : w.store.lookup (wire systemVisits) with
      | none =>
        simp only [Cmd.run, hl, Except.ok.injEq] at happly
        rw [← happly] at hd
        exact h.reset d hd
      | some e =>
        have hd' := hd
        rw [Store.deadline, (lookup_expireAt happly hl).1, if_neg hahead] at hd'
        cases hd'
        exact ⟨(not_le.mp hahead).le, created, rfl⟩

/-- A batch sends its ZINCRBY, then its EXPIRE. -/
theorem visit_head {f : VisitFlight} {c : Cmd} (h : (f.rest I).head? = some c) :
    (f.sent = 0 ∧ c = .zincrby (wire systemVisits) 1 (wire (normalizeSystem I f.systemName))) ∨
      (f.sent = 1 ∧ c = .expireAt (wire systemVisits) (getNextExpirationUtc f.created)) := by
  obtain ⟨created, systemName, n⟩ := f
  match n with
  | 0 =>
    cases h
    exact .inl ⟨rfl, rfl⟩
  | 1 =>
    cases h
    exact .inr ⟨rfl, rfl⟩
  | n + 2 =>
    have hnil : VisitFlight.rest I ⟨created, systemName, n + 2⟩ = [] :=
      List.drop_eq_nil_of_le (Nat.le_add_left 2 n)
    rw [hnil] at h
    cases h

/-- One step: all stays counted exactly if the step is timely. -/
theorem Booked.step (h : Booked w) {a : VisitAction} (hs : w.step I a = some w') :
    (w'.AllCounted ↔ w.Timely a) ∧ (w.Timely a → Booked w') := by
  cases a with
  | tick t =>
    simp only [VisitWorld.step] at hs
    split_ifs at hs with ht
    cases hs
    exact h.tick ht
  | submit systemName =>
    cases hs
    have hb : Booked { w with flights := w.flights ++ [⟨w.now, systemName, 0⟩] } :=
      ⟨h.sorted, h.reset, h.past, h.counted⟩
    exact ⟨iff_of_true hb.counted trivial, fun _ => hb⟩
  | command i =>
    obtain ⟨f, hf, hs⟩ := Option.bind_eq_some_iff.mp hs
    obtain ⟨c, hc, hs⟩ := Option.bind_eq_some_iff.mp hs
    cases hs
    rcases visit_head hc with ⟨hsent, rfl⟩ | ⟨hsent, rfl⟩
    · have hb := h.increment (wire (normalizeSystem I f.systemName)) (w.flights.set i { f with sent := f.sent + 1 })
      refine ⟨iff_of_true hb.counted fun f' hf' hone => ?_, fun _ => hb⟩
      cases hf.symm.trans hf'
      omega
    · obtain ⟨hiff, hb⟩ := h.expire f.created (w.flights.set i { f with sent := f.sent + 1 }) rfl
      have htimely : (weekOf f.created < weekOf w.now → ∀ v ∈ w.counted, weekOf v.1 ≠ weekOf w.now) ↔
          w.Timely (.command i) := by
        constructor
        · intro hall f' hf' _ hlate
          cases hf.symm.trans hf'
          exact hall hlate
        · exact fun hall hlate => hall f hf hsent hlate
      exact ⟨hiff.trans htimely, fun ht => hb (hiff.mpr (htimely.mpr ht))⟩

/-- In every run of timely steps every visit stays counted until the reset after it; and of the steps that can
come next, exactly the timely ones keep it so. -/
theorem visits_counted_until_reset (I : Casing) (now : Time) {w : VisitWorld}
    (h : Runs.Reaches (VisitWorld.step I) Timely (initial now) w) :
    w.AllCounted ∧ ∀ a w', w.step I a = some w' → (w'.AllCounted ↔ w.Timely a) := by
  have hb : Booked w := h.invariant (booked_initial now) fun _ _ _ hb hok hs => (hb.step hs).2 hok
  exact ⟨hb.counted, fun a w' hs => (hb.step hs).1⟩

end Steps

section Thursday

instance (w : VisitWorld) (a : VisitAction) : Decidable (w.Timely a) :=
  match a with
  | .tick t => inferInstanceAs (Decidable (∀ v ∈ w.counted,
      w.store.deadline (wire systemVisits) = some v.1 → v.1 < t → weekOf v.1 ≠ weekOf t))
  | .submit _ => inferInstanceAs (Decidable True)
  | .command i => inferInstanceAs (Decidable (∀ f ∈ w.flights[i]?, f.sent = 1 → weekOf f.created < weekOf w.now →
      ∀ v ∈ w.counted, weekOf v.1 ≠ weekOf w.now))

/-- A batch of the old week ends a second before the reset; the one after it begins a second later. -/
theorem visits_counted_until_reset_sol :
    ∃ w, Runs.runIf (VisitWorld.step asciiCasing) Timely
        [.submit (lit "Sol"), .command 0, .command 0, .tick (firstReset + 1000), .submit (lit "Sol"), .command 1,
          .tick (firstReset + 1200), .command 1] (initial (firstReset - 1000)) = some w ∧
      w.thisWeek (lit "SOL") = 1 ∧ w.AllCounted := by
  have h : ((Runs.runIf (VisitWorld.step asciiCasing) Timely
      [.submit (lit "Sol"), .command 0, .command 0, .tick (firstReset + 1000), .submit (lit "Sol"), .command 1,
        .tick (firstReset + 1200), .command 1] (initial (firstReset - 1000))).map fun w =>
      decide (w.thisWeek (lit "SOL") = 1)) = some true := by
    decide +kernel
  obtain ⟨w, hw, hweek⟩ := Option.map_eq_some_iff.mp h
  exact ⟨w, hw, of_decide_eq_true hweek,
    (visits_counted_until_reset asciiCasing _ (Runs.reaches_runIf .refl hw)).1⟩

/-- One consumer builds its batch a millisecond before the reset, and the server runs it after a visit that
another consumer recorded in the new week: that visit is gone. -/
theorem late_expire_deletes_new_week :
    ¬ ∀ (I : Casing) (now : Time) (w : VisitWorld),
      Runs.Reaches (VisitWorld.step I) (fun _ _ => True) (initial now) w → w.AllCounted := by
  intro hall
  have h : ((Runs.runIf (VisitWorld.step asciiCasing) (fun _ _ => True)
      [.submit (lit "Sol"), .tick (firstReset + 1), .submit (lit "Achenar"), .command 1, .command 1, .command 0,
        .command 0] (initial (firstReset - 1))).map fun w => decide (w.thisWeek (lit "ACHENAR") = 1 ∧
          w.store.zscore (wire systemVisits) (lit "ACHENAR") = none)) = some true := by
    decide +kernel
  obtain ⟨w, hw, hlost⟩ := Option.map_eq_some_iff.mp h
  obtain ⟨hweek, hscore⟩ := of_decide_eq_true hlost
  have hle := hall asciiCasing _ w (Runs.reaches_runIf .refl hw) (lit "ACHENAR")
  rw [hweek, hscore] at hle
  exact absurd hle (by decide)

end Thursday

end VisitWorld

end EliteEvents
