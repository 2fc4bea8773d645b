import EliteEvents.Proofs.OutageLog

/-! When the receive loop rebuilds its socket: exactly on a receive that times out after the feed has been silent
for longer than the threshold, with the last attempt as long ago. -/

namespace EliteEvents

open Text

namespace Receiver

variable {J : Type} {X : External J} {shard : MessageShardFilter} {silence : ℕ} {t : Turn} {s s' : ReceiverState}
  {es : List Effect}

/-- The clock never goes back from `now` on. A reading that a turn does not take is like one that it takes. -/
def Clocked : ℕ → List Turn → Prop
  | _, [] => True
  | now, t :: ts =>
    now ≤ t.arrival ∧ now ≤ t.idle ∧ t.idle ≤ t.reconnected ∧ Clocked (max t.arrival t.reconnected) ts

theorem reconnect_notMem_handle (m : JournalMessage) : .reconnect ∉ (JournalMessageHandler.handle X t m).1 := by
  unfold JournalMessageHandler.handle
  split
  · simp
  · simp
  · dsimp only
    split <;> simp

theorem reconnect_notMem_dispatch (json : Str) : .reconnect ∉ (dispatch X t json).1 := by
  unfold dispatch
  split
  · simp
  · rename_i m _
    rw [getMessageHandlers_eq]
    have hm := reconnect_notMem_handle (X := X) (t := t) m
    split_ifs
    · unfold runHandlers
      split
      · rename_i hx
        rwa [hx] at hm
      · rename_i hx
        rw [hx] at hm
        simpa [runHandlers] using hm
    · simp [runHandlers]
  · simp
  · simp

/-- The clocks that only the loop itself writes. -/
theorem processMessage_clocks (json : Str) : .reconnect ∉ (processMessage X t s json).2 ∧
    (processMessage X t s json).1.lastMessageTicks = s.lastMessageTicks ∧
      (processMessage X t s json).1.lastReconnect = s.lastReconnect := by
  have hd := reconnect_notMem_dispatch (X := X) (t := t) json
  unfold processMessage
  rcases hx : dispatch X t json with ⟨es, e | u⟩ <;> rw [hx] at hd <;> dsimp only <;> split_ifs <;> simp [hd]

theorem recordHeartbeat_clocks (force : Bool) : .reconnect ∉ (recordHeartbeat t force s).2 ∧
    (recordHeartbeat t force s).1.lastMessageTicks = s.lastMessageTicks ∧
      (recordHeartbeat t force s).1.lastReconnect = s.lastReconnect := by
  unfold recordHeartbeat
  split_ifs
  · simp
  · dsimp only
    split <;> simp

theorem onFrame_clocks (str : Str) : .reconnect ∉ (onFrame X shard t s str).2 ∧
    (onFrame X shard t s str).1.lastMessageTicks = t.arrival ∧
      (onFrame X shard t s str).1.lastReconnect = s.lastReconnect := by
  unfold onFrame
  dsimp only
  split_ifs with ho
  · obtain ⟨hp, hm, hr⟩ := processMessage_clocks (X := X) (t := t) (s := recordHandled (recordMessage t s)) str
    obtain ⟨hp', hm', hr'⟩ := recordHeartbeat_clocks (t := t)
      (s := (processMessage X t (recordHandled (recordMessage t s)) str).1) false
    refine ⟨?_, hm'.trans hm, hr'.trans hr⟩
    rw [List.mem_append, not_or]
    exact ⟨hp, hp'⟩
  · obtain ⟨hp', hm', hr'⟩ := recordHeartbeat_clocks (t := t) (s := recordMessage t s) false
    exact ⟨by simpa using hp', hm', hr'⟩

/-- What a turn does to the two clocks, and whether it reconnects. -/
theorem turn_clocks (h : turn X shard silence t s = .ok (s', es)) :
    (∃ str, receive X t.received = .ok (some str) ∧ .reconnect ∉ es ∧ s'.lastMessageTicks = t.arrival ∧
      s'.lastReconnect = s.lastReconnect) ∨
    (receive X t.received = .ok none ∧ s'.lastMessageTicks = s.lastMessageTicks ∧
      ((.reconnect ∈ es ↔ s.lastMessageTicks + silence < t.idle ∧ s.lastReconnect + silence < t.idle) ∧
        s'.lastReconnect = if .reconnect ∈ es then t.reconnected else s.lastReconnect)) := by
  unfold turn at h
  split at h
  · cases h
  · rename_i str hr
    obtain ⟨hp, hm, hl⟩ := @onFrame_clocks _ X shard t s str
    obtain ⟨rfl, rfl⟩ := Prod.mk.inj (Except.ok.inj h)
    exact .inl ⟨str, hr, hp, hm, hl⟩
  · rename_i hr
    have hiff : shouldReconnect silence t s = true ↔
        s.lastMessageTicks + silence < t.idle ∧ s.lastReconnect + silence < t.idle := by
      unfold shouldReconnect
      rw [Bool.and_eq_true, decide_eq_true_eq, decide_eq_true_eq]
      omega
    split_ifs at h with hc
    · obtain ⟨rfl, rfl⟩ := Prod.mk.inj (Except.ok.inj h)
      exact .inr ⟨hr, rfl, iff_of_true List.mem_cons_self (hiff.mp hc), by simp⟩
    · obtain ⟨rfl, rfl⟩ := Prod.mk.inj (Except.ok.inj h)
      exact .inr ⟨hr, rfl, iff_of_false List.not_mem_nil fun hn => hc (hiff.mpr hn), by simp⟩

/-- A turn that received a message. -/
def Hears (X : External J) (t : Turn) : Prop := ∃ str, receive X t.received = .ok (some str)

theorem reconnects_from {now : ℕ} {before after : List Turn} (hclock : Clocked now (before ++ t :: after))
    (hm : s.lastMessageTicks ≤ now) (hr : s.lastReconnect ≤ now)
    (hes : (loop X shard silence (before ++ t :: after) s).turns[before.length]? = some es) :
    .reconnect ∈ es ↔ receive X t.received = .ok none ∧
      (s.lastMessageTicks + silence < t.idle ∧ s.lastReconnect + silence < t.idle) ∧
      ∀ p ∈ before.zip (loop X shard silence (before ++ t :: after) s).turns,
        (Hears X p.1 → p.1.arrival + silence < t.idle) ∧
          (.reconnect ∈ p.2 → p.1.reconnected + silence < t.idle) := by
  induction before generalizing s now with
  | nil =>
    simp only [List.nil_append, List.length_nil, List.zip_nil_left, List.not_mem_nil, false_implies, implies_true,
      and_true] at hes ⊢
    unfold loop at hes
    cases ht : turn X shard silence t s with
    | error e => simp [ht] at hes
    | ok r =>
      simp only [ht, List.getElem?_cons_zero, Option.some.injEq] at hes
      subst hes
      rcases turn_clocks ht with ⟨str, hrec, hn, -, -⟩ | ⟨hrec, -, hiff, -⟩
      · exact iff_of_false hn fun h => by cases hrec.symm.trans h.1
      · rw [hiff]
        exact (and_iff_right hrec).symm
  | cons u before ih =>
    obtain ⟨ha, hi, hir, hclock⟩ := hclock
    rw [List.cons_append] at hes ⊢
    unfold loop at hes ⊢
    cases ht : turn X shard silence u s with
    | error e => simp [ht] at hes
    | ok r =>
      simp only [ht, List.length_cons, List.getElem?_cons_succ] at hes
      simp only [List.zip_cons_cons, List.forall_mem_cons]
      -- the clocks of the state are those of the turns so far, and no earlier one is later than the last
      rcases turn_clocks ht with ⟨str, hrec, hn, hm', hr'⟩ | ⟨hrec, hm', hiff, hr'⟩
      · rw [ih hclock (by omega) (by omega) hes, hm', hr']
        refine and_congr_right fun _ => ?_
        rw [← and_assoc]
        refine and_congr_left fun _ => ⟨fun h => ⟨by omega, fun _ => h.1, fun h' => absurd h' hn⟩,
          fun h => ⟨h.2.1 ⟨str, hrec⟩, h.1.2⟩⟩
      · have hdeaf : ¬Hears X u := by
          rintro ⟨str, h⟩
          cases hrec.symm.trans h
        rw [ih hclock (by omega) (by split_ifs at hr' <;> omega) hes, hm', hr']
        refine and_congr_right fun _ => ?_
        rw [← and_assoc]
        refine and_congr_left fun _ => ?_
        split_ifs with hmem
        · exact ⟨fun h => ⟨by omega, fun h' => absurd h' hdeaf, fun _ => h.2⟩, fun h => ⟨h.1.1, h.2.2 hmem⟩⟩
        · exact ⟨fun h => ⟨h, fun h' => absurd h' hdeaf, fun h' => absurd h' hmem⟩, fun h => h.1⟩

/-- A turn of a run reconnects exactly if it receives nothing and its clock is past the threshold, counted from the
start of the process and from every message and every attempt before it. -/
theorem reconnects_iff_silent {start : ℕ} {seed : Turn} {before after : List Turn}
    (hclock : Clocked (max start seed.reconnected) (before ++ t :: after))
    (hes : (execute X shard silence start seed (before ++ t :: after)).2.turns[before.length]? = some es) :
    .reconnect ∈ es ↔ receive X t.received = .ok none ∧
      (start + silence < t.idle ∧ seed.reconnected + silence < t.idle) ∧
      ∀ p ∈ before.zip (execute X shard silence start seed (before ++ t :: after)).2.turns,
        (Hears X p.1 → p.1.arrival + silence < t.idle) ∧
          (.reconnect ∈ p.2 → p.1.reconnected + silence < t.idle) := by
  obtain ⟨-, hm, hr⟩ := recordHeartbeat_clocks (t := seed) (s := ⟨0, 0, start, 0, 0, 0, seed.reconnected⟩) true
  unfold execute startup at hes ⊢
  have h := reconnects_from hclock (hm.trans_le (le_max_left _ _)) (hr.trans_le (le_max_right _ _)) hes
  rw [hm, hr] at h
  exact h

/-- A receive that timed out at this second. -/
def timedOutAt (second : ℕ) : Turn := { downAt second with reconnected := second * 10000000 }

/-- With a threshold of two minutes: after one attempt, nothing for the next two minutes, then another. -/
theorem reconnects_five_minutes :
    (execute solExternal onlyShard 1200000000 0 (timedOutAt 0)
        ([timedOutAt 100, timedOutAt 130, timedOutAt 240] ++ timedOutAt 260 :: [])).2.turns =
      [[], [.reconnect], [], [.reconnect]] ∧
    ∀ p ∈ [timedOutAt 100, timedOutAt 130, timedOutAt 240].zip
        (execute solExternal onlyShard 1200000000 0 (timedOutAt 0)
          ([timedOutAt 100, timedOutAt 130, timedOutAt 240] ++ timedOutAt 260 :: [])).2.turns,
      (Hears solExternal p.1 → p.1.arrival + 1200000000 < 2600000000) ∧
        (.reconnect ∈ p.2 → p.1.reconnected + 1200000000 < 2600000000) := by
  have hturns : (execute solExternal onlyShard 1200000000 0 (timedOutAt 0)
      ([timedOutAt 100, timedOutAt 130, timedOutAt 240] ++ timedOutAt 260 :: [])).2.turns =
        [[], [.reconnect], [], [.reconnect]] := by decide +kernel
  have hclock : Clocked (max 0 (timedOutAt 0).reconnected)
      ([timedOutAt 100, timedOutAt 130, timedOutAt 240] ++ timedOutAt 260 :: []) := by
    simp [Clocked, timedOutAt, downAt]
  exact ⟨hturns, ((reconnects_iff_silent hclock (by rw [hturns]; rfl)).mp List.mem_cons_self).2.2⟩

end Receiver

end EliteEvents
