import Mathlib.Data.List.AList
import Mathlib.Tactic

/-! Renaming the keys of a keyspace one at a time, in any order and with repetitions, each to its own target unless
that name is taken. Whatever the order, every value stays under its key or comes under the target of it; and once every
misnamed key has been visited, there is nothing left to rename. -/

namespace Renaming

variable {K V : Type}

abbrev Keyspace (K V : Type) := AList fun _ : K => V

/-- RENAME: what was at the new name is replaced, and a missing key is an error. -/
def rename [DecidableEq K] (σ : Keyspace K V) (old new : K) : Option (Keyspace K V) :=
  (σ.lookup old).map fun v => (σ.erase old).insert new v

/-- `τ` is `σ` with its keys renamed by `f`. No two of them can become one, as `τ` has each of its keys once. -/
def Relabelled (f : K → K) (σ τ : Keyspace K V) : Prop :=
  τ.entries.Perm (σ.entries.map fun e => ⟨f e.1, e.2⟩)

section Relabelled

variable {f g : K → K} {σ τ ρ : Keyspace K V} {k : K} {v : V}

theorem Relabelled.trans (h : Relabelled f σ τ) (h' : Relabelled g τ ρ) : Relabelled (g ∘ f) σ ρ := by
  have := h.map fun e : (_ : K) × V => (⟨g e.1, e.2⟩ : (_ : K) × V)
  rw [List.map_map] at this
  exact List.Perm.trans h' this

theorem Relabelled.values (h : Relabelled f σ τ) :
    (τ.entries.map Sigma.snd : Multiset V) = (σ.entries.map Sigma.snd : Multiset V) := by
  have := h.map Sigma.snd
  rw [List.map_map] at this
  exact Multiset.coe_eq_coe.mpr this

variable [DecidableEq K]

theorem mem_of_lookup (h : σ.lookup k = some v) : k ∈ σ :=
  AList.lookup_isSome.mp (Option.isSome_of_eq_some h)

theorem exists_lookup (h : k ∈ σ) : ∃ v, σ.lookup k = some v :=
  Option.isSome_iff_exists.mp (AList.lookup_isSome.mpr h)

/-- Every value is found under the new name of its key, -/
theorem Relabelled.lookup (h : Relabelled f σ τ) (hk : σ.lookup k = some v) : τ.lookup (f k) = some v := by
  have he := AList.mem_lookup_iff.mp hk
  exact AList.mem_lookup_iff.mpr (h.mem_iff.mpr (List.mem_map_of_mem he))

/-- and every value found was under a key of that new name. -/
theorem Relabelled.lookup_inv (h : Relabelled f σ τ) {j : K} (hj : τ.lookup j = some v) :
    ∃ k, f k = j ∧ σ.lookup k = some v := by
  obtain ⟨e, he, heq⟩ := List.mem_map.mp (h.mem_iff.mp (AList.mem_lookup_iff.mp hj))
  obtain ⟨k, w⟩ := e
  cases heq
  exact ⟨k, rfl, AList.mem_lookup_iff.mpr he⟩

/-- A key renamed to a free name. -/
theorem relabelled_rename {new : K} (hk : σ.lookup k = some v) (hnew : new ∉ σ) :
    Relabelled (fun j => if j = k then new else j) σ ((σ.erase k).insert new v) := by
  have hsplit : σ.entries.Perm ((σ.erase k).insert k v).entries := by
    refine List.lookup_ext σ.nodupKeys (AList.nodupKeys _) fun j w => ?_
    change w ∈ σ.lookup j ↔ w ∈ ((σ.erase k).insert k v).lookup j
    by_cases hj : j = k
    · rw [hj, hk, AList.lookup_insert]
    · rw [AList.lookup_insert_ne hj, AList.lookup_erase_ne hj]
  have hkeep : ∀ e ∈ (σ.erase k).entries,
      (⟨if e.1 = k then new else e.1, e.2⟩ : (_ : K) × V) = e := by
    intro e he
    have : e.1 ∈ σ.erase k := List.mem_map_of_mem he
    rw [if_neg (AList.mem_erase.mp this).1]
  have hmap := hsplit.map fun e : (_ : K) × V => (⟨if e.1 = k then new else e.1, e.2⟩ : (_ : K) × V)
  rw [AList.entries_insert_of_notMem (by simp [AList.mem_erase]), List.map_cons, List.map_congr_left hkeep,
    List.map_id', if_pos rfl] at hmap
  unfold Relabelled
  rw [AList.entries_insert_of_notMem fun h => hnew (AList.mem_erase.mp h).2]
  exact hmap.symm

end Relabelled

variable [DecidableEq K] (target : K → K)

/-- One key: it keeps its name when that is its target, and when the target is taken. -/
def visit (σ : Keyspace K V) (k : K) : Keyspace K V :=
  if target k = k then σ
  else if target k ∈ σ then σ
  else (rename σ k (target k)).getD σ

/-- No key is left that could be renamed. -/
def Settled (σ : Keyspace K V) : Prop := ∀ k ∈ σ, target k = k ∨ target k ∈ σ

variable {target} {σ : Keyspace K V} {j k : K} {ks : List K}

/-- What a visit can do. -/
theorem visit_cases (target : K → K) (σ : Keyspace K V) (k : K) :
    visit target σ k = σ ∧ (k ∈ σ → target k = k ∨ target k ∈ σ) ∨
      target k ≠ k ∧ target k ∉ σ ∧
        ∃ v, σ.lookup k = some v ∧ visit target σ k = (σ.erase k).insert (target k) v := by
  unfold visit
  split_ifs with hk ht
  · exact .inl ⟨rfl, fun _ => .inl hk⟩
  · exact .inl ⟨rfl, fun _ => .inr ht⟩
  · unfold rename
    cases hv : σ.lookup k with
    | none => exact .inl ⟨rfl, fun h => absurd h (AList.lookup_eq_none.mp hv)⟩
    | some v => exact .inr ⟨hk, ht, v, rfl, rfl⟩

theorem visit_settled (h : Settled target σ) (k : K) : visit target σ k = σ := by
  rcases visit_cases target σ k with ⟨hσ, -⟩ | ⟨hk, ht, v, hv, -⟩
  · exact hσ
  · rcases h k (mem_of_lookup hv) with h | h
    · exact absurd h hk
    · exact absurd h ht

/-- Only a target comes into the keyspace. -/
theorem mem_of_mem_visit (hj : target j ≠ j) (h : j ∈ visit target σ k) (ht : ∀ k, target (target k) = target k) :
    j ∈ σ := by
  rcases visit_cases target σ k with ⟨hσ, -⟩ | ⟨-, -, v, -, hσ⟩
  · rwa [hσ] at h
  · rw [hσ, AList.mem_insert, AList.mem_erase] at h
    rcases h with rfl | ⟨-, h⟩
    · exact absurd (ht k) hj
    · exact h

theorem mem_of_mem_visits (hj : target j ≠ j) (h : j ∈ ks.foldl (visit target) σ)
    (ht : ∀ k, target (target k) = target k) : j ∈ σ := by
  induction ks generalizing σ with
  | nil => exact h
  | cons k ks ih => exact mem_of_mem_visit hj (ih h) ht

/-- A key that has its target's name stays. -/
theorem mem_visit (hj : target j = j) (h : j ∈ σ) (k : K) : j ∈ visit target σ k := by
  rcases visit_cases target σ k with ⟨hσ, -⟩ | ⟨hk, -, v, -, hσ⟩
  · rwa [hσ]
  · rw [hσ, AList.mem_insert, AList.mem_erase]
    exact .inr ⟨fun hjk => hk (hjk ▸ hj), h⟩

theorem mem_visits (hj : target j = j) (h : j ∈ σ) (ks : List K) : j ∈ ks.foldl (visit target) σ := by
  induction ks generalizing σ with
  | nil => exact h
  | cons k ks ih => exact ih (mem_visit hj h k)

theorem target_mem_visit (h : k ∈ σ) : target k ∈ visit target σ k := by
  rcases visit_cases target σ k with ⟨hσ, hk⟩ | ⟨-, -, v, -, hσ⟩
  · rcases hk h with hk | hk <;> rw [hσ]
    · rwa [hk]
    · exact hk
  · rw [hσ, AList.mem_insert]
    exact .inl rfl

variable (ht : ∀ k, target (target k) = target k)

include ht

/-- A visited key is renamed, or its target is there. -/
theorem target_mem_visits (hk : k ∈ ks) (h : k ∈ ks.foldl (visit target) σ) (hne : target k ≠ k) :
    target k ∈ ks.foldl (visit target) σ := by
  obtain ⟨before, after, rfl⟩ := List.append_of_mem hk
  rw [List.foldl_append, List.foldl_cons] at h ⊢
  have hmem : k ∈ before.foldl (visit target) σ := mem_of_mem_visit hne (mem_of_mem_visits hne h ht) ht
  exact mem_visits (ht k) (target_mem_visit hmem) after

/-- Visits in any order rename keys, each to its target. -/
theorem visits_relabelled (σ : Keyspace K V) (ks : List K) :
    ∃ f : K → K, (∀ k, f k = k ∨ f k = target k) ∧ Relabelled f σ (ks.foldl (visit target) σ) := by
  induction ks generalizing σ with
  | nil => exact ⟨id, fun _ => .inl rfl, by simp [Relabelled]⟩
  | cons k ks ih =>
    obtain ⟨g, hg, hrest⟩ := ih (visit target σ k)
    rcases visit_cases target σ k with ⟨hσ, -⟩ | ⟨-, htaken, v, hv, hσ⟩
    · refine ⟨g, hg, ?_⟩
      rwa [List.foldl_cons, hσ, ← hσ]
    · rw [hσ] at hrest
      refine ⟨_, fun j => ?_, (relabelled_rename hv htaken).trans (by rwa [List.foldl_cons, hσ])⟩
      simp only [Function.comp_apply]
      split_ifs with hj
      · rw [hj]
        rcases hg (target k) with h | h
        · exact .inr h
        · exact .inr (h.trans (ht k))
      · exact hg j

/-- When nothing is left to rename, a value is under its target, or it has kept its key and another key of the same
target was there first. -/
theorem Relabelled.target_lookup {f : K → K} {τ : Keyspace K V} {v : V} (h : Relabelled f σ τ)
    (hf : ∀ k, f k = k ∨ f k = target k) (hs : Settled target τ) (hk : σ.lookup k = some v) :
    τ.lookup (target k) = some v ∨
      τ.lookup k = some v ∧
        ∃ j w, j ≠ k ∧ target j = target k ∧ σ.lookup j = some w ∧ τ.lookup (target k) = some w := by
  have hfk := h.lookup hk
  rcases hf k with hkept | hmoved
  · rw [hkept] at hfk
    by_cases hne : target k = k
    · left
      rwa [hne]
    · right
      have htaken := (hs k (mem_of_lookup hfk)).resolve_left hne
      obtain ⟨w, hw⟩ := exists_lookup htaken
      obtain ⟨j, hj, hjw⟩ := h.lookup_inv hw
      refine ⟨hfk, j, w, fun hjk => ?_, ?_, hjw, hw⟩
      · rw [hjk, hkept] at hj
        exact hne hj.symm
      · rcases hf j with hfj | hfj
        · rw [← hfj, hj, ht]
        · rw [← hfj, hj]
  · left
    rwa [hmoved] at hfk

/-! How many keys are left to rename. -/

variable (target) in
/-- The keys that have not their target's name. -/
def misnamed (σ : Keyspace K V) : Finset K := {k ∈ σ.keys.toFinset | target k ≠ k}

omit ht in
theorem mem_misnamed : k ∈ misnamed target σ ↔ k ∈ σ ∧ target k ≠ k := by
  rw [misnamed, Finset.mem_filter, List.mem_toFinset, AList.mem_keys]

/-- A renaming makes them one fewer. -/
theorem misnamed_rename (v : V) :
    misnamed target ((σ.erase k).insert (target k) v) = (misnamed target σ).erase k := by
  ext j
  rw [Finset.mem_erase, mem_misnamed, mem_misnamed, AList.mem_insert, AList.mem_erase]
  constructor
  · rintro ⟨rfl | ⟨hjk, hj⟩, hne⟩
    · exact absurd (ht k) hne
    · exact ⟨hjk, hj, hne⟩
  · exact fun ⟨hjk, hj, hne⟩ => ⟨.inr ⟨hjk, hj⟩, hne⟩

omit [DecidableEq K] ht in
theorem Relabelled.injOn {f : K → K} {τ : Keyspace K V} (h : Relabelled f σ τ) : Set.InjOn f {k | k ∈ σ} := by
  have hkeys : ((σ.entries.map fun e => (⟨f e.1, e.2⟩ : (_ : K) × V)).map Sigma.fst).Nodup :=
    (h.map Sigma.fst).nodup_iff.mp τ.nodupKeys
  rw [List.map_map] at hkeys
  intro i hi j hj hij
  obtain ⟨d, hd, rfl⟩ := List.mem_map.mp hi
  obtain ⟨e, he, rfl⟩ := List.mem_map.mp hj
  rw [List.inj_on_of_nodup_map hkeys hd he hij]

omit [DecidableEq K] ht in
theorem Relabelled.mem {f : K → K} {τ : Keyspace K V} (h : Relabelled f σ τ) : j ∈ τ ↔ ∃ k ∈ σ, f k = j := by
  change j ∈ τ.entries.map Sigma.fst ↔ ∃ k ∈ σ.entries.map Sigma.fst, f k = j
  rw [(h.map Sigma.fst).mem_iff, List.map_map]
  simp

/-- When nothing is left that could be renamed, nothing is misnamed exactly if all targets are different. -/
theorem Relabelled.misnamed_eq_empty {f : K → K} {τ : Keyspace K V} (h : Relabelled f σ τ)
    (hf : ∀ k, f k = k ∨ f k = target k) (hs : Settled target τ) :
    misnamed target τ = ∅ ↔ Set.InjOn target {k | k ∈ σ} := by
  have hall : misnamed target τ = ∅ ↔ ∀ k ∈ σ, f k = target k := by
    rw [Finset.eq_empty_iff_forall_notMem]
    refine ⟨fun hnone k hk => (hf k).elim (fun hkept => ?_) id, fun hmoved j hj => ?_⟩
    · by_contra hne
      exact hnone k (mem_misnamed.mpr ⟨h.mem.mpr ⟨k, hk, hkept⟩, fun htk => hne (hkept.trans htk.symm)⟩)
    · obtain ⟨hjτ, hne⟩ := mem_misnamed.mp hj
      obtain ⟨k, hk, rfl⟩ := h.mem.mp hjτ
      rw [hmoved k hk] at hne
      exact hne (ht k)
  rw [hall]
  constructor
  · intro hmoved i hi j hj hij
    exact h.injOn hi hj ((hmoved i hi).trans (hij.trans (hmoved j hj).symm))
  · intro hinj k hk
    by_contra hne
    have hkept : f k = k := (hf k).resolve_right hne
    -- `k` has kept a name that is not its target, so the target is another key's
    have htaken : target k ∈ τ :=
      (hs k (h.mem.mpr ⟨k, hk, hkept⟩)).resolve_left fun htk => hne (hkept.trans htk.symm)
    obtain ⟨j, hj, hfj⟩ := h.mem.mp htaken
    have htj : target j = target k := by
      rcases hf j with hj' | hj'
      · rw [← hj', hfj, ht]
      · rw [← hj', hfj]
    rw [hinj hj hk htj] at hfj
    exact hne hfj

end Renaming
