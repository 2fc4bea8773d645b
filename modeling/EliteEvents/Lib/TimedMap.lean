import Mathlib.Data.List.Basic
import Mathlib.Tactic

/-! A map whose keys lapse: each event touches one key, and a key that is not touched for
longer than the time to live is gone, with its tally. What a key holds at a time is read off
the history of events alone. -/

namespace TimedMap

structure Event (K V : Type) where
  time : ℕ
  key : K
  value : V

variable {K V : Type} (ttl : ℕ)

/-- The events at the keys in `p`, newest first. -/
def history (p : K → Bool) (es : List (Event K V)) : List (Event K V) :=
  (es.filter fun e => p e.key).reverse

/-- The events since the key last lapsed, newest first. -/
def session : List (Event K V) → List (Event K V)
  | [] => []
  | [e] => [e]
  | e :: e' :: h => if e.time ≤ e'.time + ttl then e :: session (e' :: h) else [e]

/-- The value of the latest event and the number of events since the last lapse, while the
key is alive. -/
def lookup [DecidableEq K] (t : ℕ) (k : K) (es : List (Event K V)) : Option (V × ℕ) :=
  match history (fun k' => decide (k' = k)) es with
  | [] => none
  | e :: h => if t ≤ e.time + ttl then some (e.value, (session ttl (e :: h)).length) else none

/-- Events in the order of time. -/
def Chronological (es : List (Event K V)) : Prop := es.Pairwise fun a b => a.time ≤ b.time

theorem session_length_cons (e e' : Event K V) (h : List (Event K V)) :
    (session ttl (e :: e' :: h)).length =
      if e.time ≤ e'.time + ttl then (session ttl (e' :: h)).length + 1 else 1 := by
  rw [session]
  split_ifs <;> simp

theorem history_append (p : K → Bool) (es : List (Event K V)) (e : Event K V) :
    history p (es ++ [e]) = if p e.key then e :: history p es else history p es := by
  unfold history
  rw [List.filter_append, List.reverse_append]
  split_ifs with h <;> simp [h]

theorem mem_history {p : K → Bool} {es : List (Event K V)} {e : Event K V} :
    e ∈ history p es ↔ e ∈ es ∧ p e.key = true := by
  rw [history, List.mem_reverse, List.mem_filter]

theorem head_mem {p : K → Bool} {es : List (Event K V)} {e : Event K V} {h : List (Event K V)}
    (hh : history p es = e :: h) : e ∈ es ∧ p e.key = true := by
  rw [← mem_history, hh]
  exact List.mem_cons_self

theorem history_pairwise {p : K → Bool} {es : List (Event K V)} (hc : Chronological es) :
    (history p es).Pairwise fun a b => b.time ≤ a.time := by
  rw [history, List.pairwise_reverse]
  exact hc.sublist List.filter_sublist

/-- The newest event of a history is the newest one there. -/
theorem time_le_head {p : K → Bool} {es : List (Event K V)} (hc : Chronological es)
    {e e' : Event K V} {h : List (Event K V)} (hh : history p es = e :: h)
    (he : e' ∈ history p es) : e'.time ≤ e.time := by
  have hs := history_pairwise (p := p) hc
  rw [hh] at hs he
  rcases List.mem_cons.mp he with rfl | he
  · exact le_rfl
  · exact (List.pairwise_cons.mp hs).1 e' he

/-- A key is never touched after the newest event of a set of keys it belongs to. -/
theorem history_dominates {p q : K → Bool} {es : List (Event K V)} (hc : Chronological es)
    (hpq : ∀ k, p k = true → q k = true) {e : Event K V} {h : List (Event K V)}
    (hh : history p es = e :: h) : ∃ e' h', history q es = e' :: h' ∧ e.time ≤ e'.time := by
  have he : e ∈ history p es := by rw [hh]; exact List.mem_cons_self
  have hq : e ∈ history q es := by
    rw [mem_history] at he ⊢
    exact ⟨he.1, hpq _ he.2⟩
  cases hhq : history q es with
  | nil => rw [hhq] at hq; cases hq
  | cons e' h' => exact ⟨e', h', rfl, time_le_head hc hhq hq⟩

theorem Chronological.append {es : List (Event K V)} {e : Event K V} (h : Chronological (es ++ [e])) :
    Chronological es ∧ ∀ e' ∈ es, e'.time ≤ e.time := by
  unfold Chronological at *
  rw [List.pairwise_append] at h
  exact ⟨h.1, fun e' he' => h.2.2 e' he' e (List.mem_singleton_self e)⟩

/-- From `since` to `t` no stretch longer than the time to live passes without an event. -/
def Unbroken (h : List (Event K V)) (since t : ℕ) : Prop :=
  ∀ s, since < s → s ≤ t → ∃ e ∈ h, e.time < s ∧ s ≤ e.time + ttl

theorem mem_of_mem_session {h : List (Event K V)} {e : Event K V} (he : e ∈ session ttl h) : e ∈ h := by
  induction h with
  | nil => exact he
  | cons e₁ h ih =>
    cases h with
    | nil => exact he
    | cons e₂ h =>
      rw [session] at he
      split_ifs at he
      · rcases List.mem_cons.mp he with rfl | he
        · exact List.mem_cons_self
        · exact List.mem_cons_of_mem _ (ih he)
      · rw [List.mem_singleton.mp he]
        exact List.mem_cons_self

/-- The events since the last lapse are those after which no stretch passed without one. -/
theorem mem_session_iff {e e' : Event K V} {h : List (Event K V)}
    (hs : (e :: h).Pairwise fun a b => b.time ≤ a.time) :
    e' ∈ session ttl (e :: h) ↔ e' ∈ e :: h ∧ Unbroken ttl (e :: h) e'.time e.time := by
  have hnow : Unbroken ttl (e :: h) e.time e.time := fun s h1 h2 => absurd h1 (not_lt.mpr h2)
  induction h generalizing e with
  | nil =>
    show e' ∈ [e] ↔ _
    refine ⟨fun he => ⟨he, ?_⟩, fun he => he.1⟩
    rw [List.mem_singleton.mp he]
    exact hnow
  | cons e₁ h ih =>
    obtain ⟨hhead, htail⟩ := List.pairwise_cons.mp hs
    have hlast := hhead e₁ List.mem_cons_self
    have hbefore : ∀ e₂ ∈ e₁ :: h, e₂.time ≤ e₁.time := fun e₂ he₂ => by
      rcases List.mem_cons.mp he₂ with rfl | he₂
      · exact le_rfl
      · exact (List.pairwise_cons.mp htail).1 e₂ he₂
    have ih := ih htail fun s h1 h2 => absurd h1 (not_lt.mpr h2)
    rw [session]
    split_ifs with hgap
    · constructor
      · intro he
        rcases List.mem_cons.mp he with rfl | he
        · exact ⟨List.mem_cons_self, hnow⟩
        · obtain ⟨hmem, hub⟩ := ih.mp he
          refine ⟨List.mem_cons_of_mem _ hmem, fun s h1 h2 => ?_⟩
          by_cases hs₁ : s ≤ e₁.time
          · obtain ⟨e₂, he₂, hcover⟩ := hub s h1 hs₁
            exact ⟨e₂, List.mem_cons_of_mem _ he₂, hcover⟩
          · exact ⟨e₁, by simp, by omega, by omega⟩
      · intro hin
        obtain ⟨hmem, hub⟩ := hin
        rcases List.mem_cons.mp hmem with rfl | hmem
        · exact List.mem_cons_self
        · refine List.mem_cons_of_mem _ (ih.mpr ⟨hmem, fun s h1 h2 => ?_⟩)
          obtain ⟨e₂, he₂, hcover⟩ := hub s h1 (h2.trans hlast)
          rcases List.mem_cons.mp he₂ with rfl | he₂
          · omega
          · exact ⟨e₂, he₂, hcover⟩
    · constructor
      · intro he
        rw [List.mem_singleton.mp he]
        exact ⟨List.mem_cons_self, hnow⟩
      · intro hin
        obtain ⟨hmem, hub⟩ := hin
        rcases List.mem_cons.mp hmem with rfl | hmem
        · exact List.mem_singleton_self _
        · -- the newest event ends a stretch that nothing before it covers
          have hle := hbefore e' hmem
          obtain ⟨e₂, he₂, hlt, hcover⟩ := hub e.time (by omega) le_rfl
          rcases List.mem_cons.mp he₂ with rfl | he₂
          · omega
          · have := hbefore e₂ he₂
            omega

/-- What is still accounted for at `t`: the events since the last lapse, newest first. -/
def live (t : ℕ) : List (Event K V) → List (Event K V)
  | [] => []
  | e :: h => if t ≤ e.time + ttl then session ttl (e :: h) else []

theorem session_cons (e : Event K V) (h : List (Event K V)) : session ttl (e :: h) = e :: live ttl e.time h := by
  cases h with
  | nil => rfl
  | cons e' h =>
    rw [session, live]
    split_ifs <;> rfl

/-- What is live goes on as it is until its newest event lapses, and is then gone as a whole. -/
theorem live_later {h : List (Event K V)} {T t : ℕ} (hT : T ≤ t) :
    (live ttl T h = [] ∧ live ttl t h = []) ∨ ∃ e l, live ttl T h = e :: l ∧
      live ttl t h = if t ≤ e.time + ttl then e :: l else [] := by
  cases h with
  | nil => exact .inl ⟨rfl, rfl⟩
  | cons e h =>
    rw [live, live]
    split_ifs with h1 h2
    · refine .inr ⟨e, live ttl e.time h, session_cons ttl e h, ?_⟩
      rw [if_pos h2, session_cons]
    · refine .inr ⟨e, live ttl e.time h, session_cons ttl e h, ?_⟩
      rw [if_neg h2]
    · omega
    · exact .inl ⟨rfl, rfl⟩

theorem mem_of_mem_live {h : List (Event K V)} {e : Event K V} {t : ℕ} (he : e ∈ live ttl t h) : e ∈ h := by
  cases h with
  | nil => exact he
  | cons e₁ h =>
    rw [live] at he
    split_ifs at he
    · exact mem_of_mem_session ttl he
    · cases he

/-- An event is still accounted for exactly if no stretch has passed without one since. -/
theorem mem_live_iff {e : Event K V} {h : List (Event K V)} {t : ℕ}
    (hs : h.Pairwise fun a b => b.time ≤ a.time) (ht : ∀ e ∈ h, e.time ≤ t) :
    e ∈ live ttl t h ↔ e ∈ h ∧ Unbroken ttl h e.time t := by
  cases h with
  | nil => simp [live]
  | cons e₁ h =>
    have hbefore : ∀ e₂ ∈ e₁ :: h, e₂.time ≤ e₁.time := fun e₂ he₂ => by
      rcases List.mem_cons.mp he₂ with rfl | he₂
      · exact le_rfl
      · exact (List.pairwise_cons.mp hs).1 e₂ he₂
    have ht₁ := ht e₁ List.mem_cons_self
    rw [live]
    split_ifs with halive
    · rw [mem_session_iff ttl hs]
      refine and_congr_right fun _ => ⟨fun hub s h1 h2 => ?_, fun hub s h1 h2 => hub s h1 (h2.trans ht₁)⟩
      by_cases hse : s ≤ e₁.time
      · exact hub s h1 hse
      · exact ⟨e₁, List.mem_cons_self, by omega, by omega⟩
    · refine iff_of_false List.not_mem_nil fun hin => ?_
      obtain ⟨hmem, hub⟩ := hin
      have hle := hbefore e hmem
      obtain ⟨e₂, he₂, -, hcover⟩ := hub t (by omega) le_rfl
      have := hbefore e₂ he₂
      omega

end TimedMap
