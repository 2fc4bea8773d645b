import EliteEvents.Lib.Runs
import EliteEvents.Spec.Watchdog

/-! The liveness check against what happened on the wire: it fails when, and only when, no PING was answered for
longer than the threshold; an outage that ends in time never trips it, and one that does not always does. -/

namespace EliteEvents

theorem checkLiveness_eq_unhealthy {opts : RedisLivenessOptions} {now : ℕ} {s : RedisConnectivityState} :
    checkLiveness opts now s = .unhealthy ↔ 0 < opts.unreachableRestartThreshold ∧
      (s.lastReachable : ℤ) < now - opts.unreachableRestartThreshold := by
  unfold checkLiveness RedisConnectivityState.isStuck RedisConnectivityState.unreachableFor
  split_ifs with h
  · simp only [Bool.and_eq_true, decide_eq_true_eq] at h
    simp only [true_iff]
    omega
  · simp only [Bool.and_eq_true, decide_eq_true_eq, not_and] at h
    simp only [false_iff, not_and]
    omega

theorem checkLiveness_eq_healthy {opts : RedisLivenessOptions} {now : ℕ} {s : RedisConnectivityState}
    (h : (now : ℤ) ≤ s.lastReachable + opts.unreachableRestartThreshold) :
    checkLiveness opts now s = .healthy := by
  have hn : checkLiveness opts now s ≠ .unhealthy := by
    rw [Ne, checkLiveness_eq_unhealthy]
    omega
  cases hc : checkLiveness opts now s with
  | healthy => rfl
  | unhealthy => exact absurd hc hn

namespace Watchdog

variable {opts : RedisLivenessOptions} {w w' : Watchdog} {e : ℕ × ProbeEvent} {es : List (ℕ × ProbeEvent)}

/-- Everything an event can do. -/
theorem step_cases (h : w.step opts e = some w') : w.now ≤ e.1 ∧ w'.now = e.1 ∧
    ((∃ since, w.monitor = .probing since ∧ e.2 = .answered ∧ w'.state.lastReachable = e.1 ∧
        w'.monitor = .delaying (e.1 + opts.probeInterval)) ∨
      (∃ since, w.monitor = .probing since ∧ (e.2 = .refused ∨ e.2 = .timedOut) ∧ w'.state = w.state ∧
        w'.monitor = .delaying (e.1 + opts.probeInterval)) ∨
      (∃ due, w.monitor = .delaying due ∧ e.2 = .woken ∧ w'.state = w.state ∧ w'.monitor = .probing e.1) ∨
      (e.2 = .stopping ∧ w'.state = w.state ∧ w'.monitor = .stopped)) := by
  obtain ⟨t, e⟩ := e
  unfold step at h
  split_ifs at h with ht
  refine ⟨not_lt.mp ht, ?_⟩
  cases e <;> cases hm : w.monitor <;> simp only [hm, reduceCtorEq] at h
  case answered.probing => exact Option.some.inj h ▸ ⟨rfl, .inl ⟨_, rfl, rfl, rfl, rfl⟩⟩
  case refused.probing => exact Option.some.inj h ▸ ⟨rfl, .inr (.inl ⟨_, rfl, .inl rfl, rfl, rfl⟩)⟩
  case timedOut.probing =>
    split_ifs at h
    exact Option.some.inj h ▸ ⟨rfl, .inr (.inl ⟨_, rfl, .inr rfl, rfl, rfl⟩)⟩
  case woken.delaying =>
    split_ifs at h
    exact Option.some.inj h ▸ ⟨rfl, .inr (.inr (.inl ⟨_, rfl, rfl, rfl, rfl⟩))⟩
  all_goals exact Option.some.inj h ▸ ⟨rfl, .inr (.inr (.inr ⟨rfl, rfl, rfl⟩))⟩

theorem lastReachable_step_lt {c : ℤ} (h : w.step opts e = some w') (hw : w.state.lastReachable ≤ w.now) :
    w'.state.lastReachable ≤ w'.now ∧ ((w'.state.lastReachable : ℤ) < c ↔
      (w.state.lastReachable : ℤ) < c ∧ (e.2 = .answered → (e.1 : ℤ) < c)) := by
  obtain ⟨ht, hn, ⟨_, -, he, hl, -⟩ | ⟨_, -, he, hs, -⟩ | ⟨_, -, he, hs, -⟩ | ⟨he, hs, -⟩⟩ := step_cases h
  · rw [hl, hn, he]
    simp only [forall_const]
    omega
  · rw [hs, hn]
    refine ⟨by omega, ?_⟩
    rcases he with he | he <;> simp [he]
  · rw [hs, hn, he]
    exact ⟨by omega, by simp⟩
  · rw [hs, hn, he]
    exact ⟨by omega, by simp⟩

theorem lastReachable_run_lt {c : ℤ} (h : run opts es w = some w') (hw : w.state.lastReachable ≤ w.now) :
    (w'.state.lastReachable : ℤ) < c ↔
      (w.state.lastReachable : ℤ) < c ∧ ∀ t, (t, ProbeEvent.answered) ∈ es → (t : ℤ) < c := by
  induction es generalizing w with
  | nil =>
    obtain rfl := Option.some.inj h
    simp
  | cons e es ih =>
    obtain ⟨w₁, h₁, h⟩ := Option.bind_eq_some_iff.mp h
    obtain ⟨hw₁, hstep⟩ := lastReachable_step_lt (c := c) h₁ hw
    rw [ih h hw₁, hstep, and_assoc]
    refine and_congr_right fun _ => ⟨?_, fun ha => ⟨fun he => ?_, fun t ht => ha t (.tail _ ht)⟩⟩
    · rintro ⟨he, hes⟩ t ht
      rcases List.mem_cons.mp ht with rfl | ht
      · exact he rfl
      · exact hes t ht
    · exact ha e.1 (by rw [← he]; exact List.mem_cons_self)

/-- Liveness fails exactly when the watchdog is on, the process is older than the threshold, and every PING that
was answered since then was answered longer ago than the threshold. -/
theorem unhealthy_iff_unanswered {startedUtc now : ℕ} (h : run opts es (start startedUtc) = some w) :
    checkLiveness opts now w.state = .unhealthy ↔ 0 < opts.unreachableRestartThreshold ∧
      startedUtc + opts.unreachableRestartThreshold < now ∧
      ∀ t, (t, ProbeEvent.answered) ∈ es → t + opts.unreachableRestartThreshold < now := by
  rw [checkLiveness_eq_unhealthy, lastReachable_run_lt h le_rfl]
  refine and_congr_right fun _ => and_congr ?_ (forall_congr' fun t => imp_congr_right fun _ => ?_)
  · change (startedUtc : ℤ) < _ ↔ _
    omega
  · omega

theorem unhealthy_quarter_hour_after_last_answer : ∃ w,
    run .default [(10000000, .answered), (310000000, .woken), (360000000, .timedOut)] (start 0) = some w ∧
      checkLiveness .default 9010000001 w.state = .unhealthy := by
  have hrun : run .default [(10000000, .answered), (310000000, .woken), (360000000, .timedOut)] (start 0) =
      some ⟨360000000, ⟨10000000⟩, .delaying 660000000⟩ := rfl
  refine ⟨_, hrun, (unhealthy_iff_unanswered hrun).mpr ⟨by decide, by decide, ?_⟩⟩
  simp [RedisLivenessOptions.default, TimeSpan.ticksPerSecond]

/-- Timers fire at most `lag` late, so what is due by then has happened at `t`. -/
def Prompt (opts : RedisLivenessOptions) (lag : ℕ) (w : Watchdog) (t : ℕ) : Prop :=
  match w.monitor with
  | .probing since => t ≤ since + opts.probeTimeout + lag
  | .delaying due => t ≤ due + lag
  | .stopped => True

/-- What the events of a probe say of the server: an answer comes while it is reachable, and a probe fails only
if it was unreachable at some moment of it. -/
def Truthful (down : ℕ → Prop) (w : Watchdog) (e : ℕ × ProbeEvent) : Prop :=
  match e.2, w.monitor with
  | .answered, _ => ¬down e.1
  | .refused, .probing since | .timedOut, .probing since => ∃ x, since ≤ x ∧ x ≤ e.1 ∧ down x
  | _, _ => True

/-- The runs of a process whose client is cut off from Redis at the times `down`. -/
abbrev Lives (opts : RedisLivenessOptions) (lag : ℕ) (down : ℕ → Prop) : Watchdog → Watchdog → Prop :=
  Runs.Reaches (step opts) fun w e => w.Prompt opts lag e.1 ∧ w.Truthful down e

end Watchdog

/-- A stretch of this length has a whole probe in it: what is left of the one before, the delay, and the probe. -/
def RedisLivenessOptions.recovery (opts : RedisLivenessOptions) (lag : ℕ) : ℕ :=
  (opts.probeTimeout + lag) + (opts.probeInterval + lag) + (opts.probeTimeout + lag)

namespace Watchdog

variable {opts : RedisLivenessOptions} {w w' : Watchdog} {lag : ℕ} {down : ℕ → Prop}

/-- Where the loop stands at the end of an outage: of each stretch from `u` on in which Redis is reachable, the
part that passed before the first probe begun in it. -/
def OnTime (opts : RedisLivenessOptions) (lag : ℕ) (down : ℕ → Prop) (w : Watchdog) : Prop :=
  ∀ u, w.state.lastReachable ≤ u → (∀ x, u ≤ x → x ≤ u + opts.recovery lag → ¬down x) →
    match w.monitor with
    | .probing since => since ≤ u + (opts.probeTimeout + lag) + (opts.probeInterval + lag)
    | .delaying due => due ≤ u + (opts.probeTimeout + lag) + opts.probeInterval
    | .stopped => True

theorem onTime_step {e : ℕ × ProbeEvent} (hw : OnTime opts lag down w) (hp : w.Prompt opts lag e.1)
    (ht : w.Truthful down e) (h : w.step opts e = some w') : OnTime opts lag down w' := by
  intro u hu hup
  obtain ⟨-, -, ⟨since, hm, he, hl, hm'⟩ | ⟨since, hm, he, hs, hm'⟩ | ⟨due, hm, he, hs, hm'⟩ | ⟨-, -, hm'⟩⟩ :=
    step_cases h
  · rw [hm']
    simp only
    omega
  · -- a probe begun in the stretch would have been answered, so this one began before it
    have hlate := hw u (hs ▸ hu) hup
    simp only [hm, Prompt] at hp hlate
    obtain ⟨x, hsx, hxe, hx⟩ : ∃ x, since ≤ x ∧ x ≤ e.1 ∧ down x := by
      rcases he with he | he <;> simpa only [Truthful, hm, he] using ht
    have hbefore : since < u := by
      by_contra hge
      unfold RedisLivenessOptions.recovery at hup
      exact hup x (by omega) (by omega) hx
    rw [hm']
    simp only
    omega
  · have hlate := hw u (hs ▸ hu) hup
    simp only [hm, Prompt] at hp hlate
    rw [hm']
    simp only
    omega
  · rw [hm']
    trivial

theorem onTime_lives {startedUtc : ℕ} (h : Lives opts lag down (start startedUtc) w) : OnTime opts lag down w := by
  refine h.invariant ?_ fun w e w' hw hok hs => onTime_step hw hok.1 hok.2 hs
  intro u hu _
  change startedUtc ≤ u at hu
  change startedUtc ≤ _
  omega

/-- The last answer came while Redis was reachable, if there was one at all. -/
theorem lastReachable_lives {startedUtc : ℕ} (h : Lives opts lag down (start startedUtc) w) :
    startedUtc ≤ w.state.lastReachable ∧ w.state.lastReachable ≤ w.now ∧
      (w.state.lastReachable = startedUtc ∨ ¬down w.state.lastReachable) := by
  refine h.invariant (P := fun w => startedUtc ≤ w.state.lastReachable ∧ w.state.lastReachable ≤ w.now ∧
    (w.state.lastReachable = startedUtc ∨ ¬down w.state.lastReachable)) ⟨le_rfl, le_rfl, .inl rfl⟩ ?_
  intro w e w' hw hok hs
  obtain ⟨ht, hn, ⟨_, -, he, hl, -⟩ | ⟨_, -, -, hst, -⟩ | ⟨_, -, -, hst, -⟩ | ⟨-, hst, -⟩⟩ := step_cases hs
  · have hup := hok.2
    simp only [Truthful, he] at hup
    rw [hl, hn]
    exact ⟨by omega, le_rfl, .inr hup⟩
  all_goals
    rw [hst, hn]
    exact ⟨hw.1, hw.2.1.trans ht, hw.2.2⟩

theorem answered_before_outage {startedUtc a : ℕ} (h : Lives opts lag down (start startedUtc) w)
    (hstart : startedUtc ≤ a) (hdown : ∀ x, a ≤ x → x ≤ w.now → down x) : w.state.lastReachable ≤ a := by
  obtain ⟨-, hle, hs | hup⟩ := lastReachable_lives h
  · omega
  · by_contra hlt
    exact hup (hdown _ (by omega) hle)

/-- While the loop runs, liveness tells sustained outages from passing ones: it holds as long as every window of
the threshold's length has a reachable stretch with room for a probe, and it fails as soon as Redis has been
unreachable for longer than the threshold. -/
theorem liveness_tells_sustained_outages {startedUtc now : ℕ} (h : Lives opts lag down (start startedUtc) w)
    (hon : 0 < opts.unreachableRestartThreshold) (hrun : w.monitor ≠ .stopped) (hnow : w.now ≤ now)
    (hp : w.Prompt opts lag now) :
    ((∀ t, startedUtc ≤ t → t ≤ now → ∃ u, t ≤ u ∧
        (u + opts.recovery lag : ℤ) ≤ t + opts.unreachableRestartThreshold ∧
        ∀ x, u ≤ x → x ≤ u + opts.recovery lag → ¬down x) →
      checkLiveness opts now w.state = .healthy) ∧
    (∀ a, startedUtc ≤ a → a + opts.unreachableRestartThreshold < now →
      (∀ x, a ≤ x → x ≤ now → down x) → checkLiveness opts now w.state = .unhealthy) := by
  constructor
  · intro hwin
    obtain ⟨hs, hle, -⟩ := lastReachable_lives h
    obtain ⟨u, hu, hroom, hup⟩ := hwin w.state.lastReachable hs (hle.trans hnow)
    have hlate := onTime_lives h u hu hup
    refine checkLiveness_eq_healthy (le_trans ?_ hroom)
    unfold RedisLivenessOptions.recovery
    cases hm : w.monitor with
    | probing since =>
      simp only [hm, Prompt] at hp hlate
      omega
    | delaying due =>
      simp only [hm, Prompt] at hp hlate
      omega
    | stopped => exact absurd hm hrun
  · intro a hstart ha hdown
    have hlast := answered_before_outage h hstart fun x hx hxn => hdown x hx (hxn.trans hnow)
    exact checkLiveness_eq_unhealthy.mpr ⟨hon, by omega⟩

/-- Ten minutes without Redis under the default options, and a minute and more under a threshold of one minute. -/
theorem outages_of_ten_minutes_and_of_one :
    (∃ w, Lives .default 10000000 (fun x => 600000000 ≤ x ∧ x < 6600000000) (start 0) w ∧
      checkLiveness .default 960000000 w.state = .healthy) ∧
    (∃ w, Lives ⟨300000000, 50000000, 600000000⟩ 0 (fun x => 600000000 ≤ x) (start 0) w ∧
      checkLiveness ⟨300000000, 50000000, 600000000⟩ 1330000000 w.state = .unhealthy) := by
  constructor
  · have hrun : Lives .default 10000000 (fun x => 600000000 ≤ x ∧ x < 6600000000) (start 0)
        ⟨670000000, ⟨320000000⟩, .delaying 970000000⟩ := by
      refine .step (670000000, .timedOut) (.step (620000000, .woken) (.step (320000000, .answered)
        (.step (310000000, .woken) (.step (10000000, .answered) .refl ⟨?_, ?_⟩ rfl) ⟨?_, ?_⟩ rfl) ⟨?_, ?_⟩ rfl)
        ⟨?_, ?_⟩ rfl) ⟨?_, ⟨620000000, ?_⟩⟩ rfl <;>
      simp [Prompt, Truthful, start, RedisLivenessOptions.default, TimeSpan.ticksPerSecond]
    refine ⟨_, hrun, (liveness_tells_sustained_outages hrun (by decide) (by decide) (by decide)
      (by simp [Prompt])).1 ?_⟩
    intro t _ _
    refine ⟨max t 6600000000, le_max_left _ _, ?_, fun x hx _ => by omega⟩
    simp only [RedisLivenessOptions.recovery, RedisLivenessOptions.default, TimeSpan.ticksPerSecond]
    omega
  · have hrun : Lives ⟨300000000, 50000000, 600000000⟩ 0 (fun x => 600000000 ≤ x) (start 0)
        ⟨1320000000, ⟨320000000⟩, .probing 1320000000⟩ := by
      refine .step (1320000000, .woken) (.step (1020000000, .timedOut) (.step (970000000, .woken)
        (.step (670000000, .timedOut) (.step (620000000, .woken) (.step (320000000, .answered)
        (.step (310000000, .woken) (.step (10000000, .answered) .refl ⟨?_, ?_⟩ rfl) ⟨?_, ?_⟩ rfl) ⟨?_, ?_⟩ rfl)
        ⟨?_, ?_⟩ rfl) ⟨?_, ⟨620000000, ?_⟩⟩ rfl) ⟨?_, ?_⟩ rfl) ⟨?_, ⟨970000000, ?_⟩⟩ rfl) ⟨?_, ?_⟩ rfl <;>
      simp [Prompt, Truthful, start]
    refine ⟨_, hrun, (liveness_tells_sustained_outages hrun (by decide) (by decide) (by decide)
      (by simp [Prompt])).2 600000000 (by decide) (by decide) fun x hx _ => hx⟩

end Watchdog

end EliteEvents
