import Mathlib.Data.List.Sort
import Mathlib.Tactic

/-! A map written out as one stream: each key and its value, both followed by a separator, in the order of the
keys. Where no key and no value holds the separator, the stream tells the map, and the order in which the map gave
its entries does not show. -/

namespace Records

variable {α : Type} {sep : α}

/-- Where a separator occurs first is no question of what surrounds it. -/
theorem separator_append_inj {a b l r : List α} (ha : sep ∉ a) (hb : sep ∉ b)
    (h : a ++ sep :: l = b ++ sep :: r) : a = b ∧ l = r := by
  rcases List.append_eq_append_iff.mp h with ⟨c, rfl, hc⟩ | ⟨c, rfl, hc⟩
  · cases c with
    | nil => exact ⟨(List.append_nil a).symm, (List.cons.inj hc).2⟩
    | cons d c =>
      rw [(List.cons.inj hc).1] at hb
      exact absurd (List.mem_append_right a List.mem_cons_self) hb
  · cases c with
    | nil => exact ⟨List.append_nil b, (List.cons.inj hc).2.symm⟩
    | cons d c =>
      rw [(List.cons.inj hc).1] at ha
      exact absurd (List.mem_append_right b List.mem_cons_self) ha

/-- A key and its value. -/
def record (sep : α) (p : List α × List α) : List α := p.1 ++ sep :: (p.2 ++ [sep])

/-- Neither the keys nor the values hold the separator. -/
def Free (sep : α) (data : List (List α × List α)) : Prop := ∀ p ∈ data, sep ∉ p.1 ∧ sep ∉ p.2

theorem record_ne_nil (p : List α × List α) : record sep p ≠ [] := by
  intro h
  have hlen := congrArg List.length h
  simp [record] at hlen

/-- The records are read back one after the other. -/
theorem records_injective {a b : List (List α × List α)} (ha : Free sep a) (hb : Free sep b)
    (h : a.flatMap (record sep) = b.flatMap (record sep)) : a = b := by
  induction a generalizing b with
  | nil =>
    cases b with
    | nil => rfl
    | cons q b => exact absurd (List.append_eq_nil_iff.mp h.symm).1 (record_ne_nil q)
  | cons p a ih =>
    cases b with
    | nil => exact absurd (List.append_eq_nil_iff.mp h).1 (record_ne_nil p)
    | cons q b =>
      have hp := ha p List.mem_cons_self
      have hq := hb q List.mem_cons_self
      simp only [List.flatMap_cons, record, List.append_assoc, List.cons_append, List.nil_append] at h
      obtain ⟨hkey, h⟩ := separator_append_inj hp.1 hq.1 h
      obtain ⟨hvalue, h⟩ := separator_append_inj hp.2 hq.2 h
      have hrest := ih (fun x hx => ha x (List.mem_cons_of_mem _ hx)) (fun x hx => hb x (List.mem_cons_of_mem _ hx)) h
      rw [Prod.ext hkey hvalue, hrest]

section Stream

variable (r : List α → List α → Prop) [DecidableRel r]

/-- The stream of a map, from its entries in any order. -/
def stream (sep : α) (data : List (List α × List α)) : List α :=
  (data.insertionSort fun a b => r a.1 b.1).flatMap (record sep)

variable [Std.Total r] [IsTrans (List α) r] [Std.Antisymm r]

theorem stream_eq_iff {a b : List (List α × List α)} (hka : (a.map Prod.fst).Nodup) (ha : Free sep a)
    (hb : Free sep b) : stream r sep a = stream r sep b ↔ a.Perm b := by
  have hpa := List.perm_insertionSort (fun a b : List α × List α => r a.1 b.1) a
  have hpb := List.perm_insertionSort (fun a b : List α × List α => r a.1 b.1) b
  constructor
  · intro h
    have hsorted := records_injective (fun p hp => ha p (hpa.mem_iff.mp hp)) (fun p hp => hb p (hpb.mem_iff.mp hp)) h
    rw [hsorted] at hpa
    exact hpa.symm.trans hpb
  · intro h
    have : Std.Total fun a b : List α × List α => r a.1 b.1 := ⟨fun a b => Std.Total.total a.1 b.1⟩
    have : IsTrans (List α × List α) fun a b => r a.1 b.1 := ⟨fun a b c => IsTrans.trans a.1 b.1 c.1⟩
    unfold stream
    congr 1
    refine (hpa.trans (h.trans hpb.symm)).eq_of_pairwise (fun p q hp hq hpq hqp => ?_)
      (List.pairwise_insertionSort _ a) (List.pairwise_insertionSort _ b)
    -- two entries of one map with one key are the same
    have hq := h.mem_iff.mpr (hpb.mem_iff.mp hq)
    exact List.inj_on_of_nodup_map hka (hpa.mem_iff.mp hp) hq (Std.Antisymm.antisymm _ _ hpq hqp)

end Stream

end Records
