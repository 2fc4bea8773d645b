import EliteEvents.Proofs.TypedStore
import EliteEvents.Spec.DockingReader
import EliteEvents.Spec.WeeklyReset

/-! The leaderboard within one week. The visits of a week all set the same deadline and run before it, so the
sorted set holds for each system the number of its visits; the bounded range of the reader is the head of what
a client would keep of the whole set. -/

namespace EliteEvents

open Text Redis RedisKeys WeeklyExpirationCalculator

/-! The calendar of resets. -/

theorem lt_getNextExpirationUtc (t : ℕ) : t < getNextExpirationUtc t := by
  unfold getNextExpirationUtc weekOf week firstReset
  omega

/-! The counts of a week. -/

/-- What the key of the visits holds: nothing before the first visit, then every system visited with its
number of visits, until the reset. -/
def Tallied (reset : Time) (names : List Str) (o : Option Entry) : Prop :=
  match names with
  | [] => o = none
  | _ :: _ => ∃ z, o = some ⟨.zset z, some reset⟩ ∧
    ∀ m, z.lookup m = if m ∈ names then some (names.count m : ℤ) else none

section Week

variable {I : Casing} {reset : Time} {names : List Str} {σ : Store}

theorem Tallied.zset {k : Str} (h : Tallied reset names (σ.lookup k)) :
    ∃ z, σ.zset k = .ok z ∧ ∀ m, z.lookup m = if m ∈ names then some (names.count m : ℤ) else none := by
  cases names with
  | nil => exact ⟨∅, Store.zset_of_missing h, fun m => rfl⟩
  | cons n names =>
    obtain ⟨z, hl, hz⟩ := h
    exact ⟨z, Store.zset_of_lookup hl, hz⟩

theorem Tallied.purge {k : Str} (h : Tallied reset names (σ.lookup k)) {t : Time} (ht : t ≤ reset) :
    (σ.purge t).lookup k = σ.lookup k := by
  refine lookup_purge_of_deadline fun d hd => ?_
  cases names with
  | nil =>
    rw [Store.deadline, show σ.lookup k = none from h] at hd
    cases hd
  | cons n names =>
    obtain ⟨z, hl, -⟩ := h
    rw [Store.deadline, hl] at hd
    cases hd
    exact ht

theorem Tallied.visit (h : Tallied reset names (σ.lookup (wire systemVisits))) {v : Visit}
    (hreset : getNextExpirationUtc v.created = reset) (hnow : v.now < reset) :
    Tallied reset (names ++ [v.member I]) ((visit I σ v).lookup (wire systemVisits)) := by
  have hfresh := Store.fresh_purge v.now σ
  obtain ⟨z, hz, hcount⟩ := h.zset
  rw [← Store.zset_congr (h.purge hnow.le)] at hz
  have hrun : (Cmd.zincrby (wire systemVisits) 1 (v.member I)).run v.now (σ.purge v.now) =
      .ok ((σ.purge v.now).put (wire systemVisits)
        (.zset (z.insert (v.member I) ((z.lookup (v.member I)).getD 0 + 1)))) := by
    rw [Cmd.run, hz]
    rfl
  obtain ⟨z', hz', hl, -⟩ := lookup_zincrby hrun
  cases hz.symm.trans hz'
  have hexec : EliteEvents.visit I σ v = (Cmd.expireAt (wire systemVisits) reset).apply v.now
      ((σ.purge v.now).put (wire systemVisits)
        (.zset (z.insert (v.member I) ((z.lookup (v.member I)).getD 0 + 1)))) := by
    rw [EliteEvents.visit, hreset]
    show (Cmd.expireAt (wire systemVisits) reset).exec v.now
      ((Cmd.zincrby (wire systemVisits) 1 (v.member I)).exec v.now σ) = _
    rw [show (Cmd.zincrby (wire systemVisits) 1 (v.member I)).exec v.now σ = _ from by
      rw [Cmd.exec, Cmd.apply, hrun], Cmd.exec_eq_apply (hfresh.run hrun)]
  obtain ⟨hl', -⟩ := @lookup_expireAt v.now _ reset _ _ _ rfl hl
  rw [if_neg (not_le.mpr hnow)] at hl'
  rw [hexec]
  have hne : names ++ [v.member I] ≠ [] := by simp
  obtain ⟨n, rest, hcons⟩ := List.exists_cons_of_ne_nil hne
  have hgoal : ∀ m, (z.insert (v.member I) ((z.lookup (v.member I)).getD 0 + 1)).lookup m =
      if m ∈ names ++ [v.member I] then some ((names ++ [v.member I]).count m : ℤ) else none := by
    intro m
    by_cases hm : m = v.member I
    · subst hm
      rw [AList.lookup_insert, if_pos (by simp), hcount, List.count_append, List.count_singleton_self]
      split_ifs with hmem
      · push_cast
        rfl
      · rw [List.count_eq_zero_of_not_mem hmem]
        rfl
    · have hzero : [v.member I].count m = 0 := List.count_eq_zero_of_not_mem (by simpa using hm)
      rw [AList.lookup_insert_ne hm, hcount, List.count_append, hzero, Nat.add_zero]
      simp only [List.mem_append, List.mem_singleton, hm, or_false]
  rw [hcons] at hgoal ⊢
  exact ⟨_, hl', hgoal⟩

theorem tallied_visitAll (I : Casing) {w : ℕ} {visits : List Visit} (σ : Store)
    (h₀ : σ.lookup (wire systemVisits) = none)
    (hweek : ∀ v ∈ visits, weekOf v.created = w ∧ weekOf v.now = w) :
    Tallied (w * week + firstReset) (visits.map (Visit.member I))
      ((visitAll I visits σ).lookup (wire systemVisits)) := by
  induction visits using List.reverseRecOn with
  | nil => exact h₀
  | append_singleton visits v ih =>
    obtain ⟨hcreated, hnow⟩ := hweek v (by simp)
    have hprev := ih fun v' hv' => hweek v' (by simp [hv'])
    rw [visitAll, List.foldl_append, List.map_append]
    refine hprev.visit ?_ ?_
    · rw [getNextExpirationUtc, hcreated]
    · rw [← hnow]
      exact lt_getNextExpirationUtc v.now

end Week

/-! The ranking. -/

/-- The systems that were visited at least twice. -/
def revisited (names : List Str) : Finset Str := names.toFinset.filter fun m => 2 ≤ names.count m

/-- The rows are the first of the systems visited at least twice, each once and with its number of visits,
the most visited first. -/
structure Ranks (names : List Str) (topN : ℕ) (rows : List SystemVisitInfo) : Prop where
  length : rows.length = min topN (revisited names).card
  distinct : (rows.map SystemVisitInfo.systemName).Nodup
  exact : ∀ r ∈ rows, r.visitCount = names.count r.systemName ∧ 2 ≤ names.count r.systemName
  ordered : rows.Pairwise fun a b => b.visitCount ≤ a.visitCount
  complete : ∀ m ∈ revisited names, m ∉ rows.map SystemVisitInfo.systemName →
    ∀ r ∈ rows, (names.count m : ℤ) ≤ r.visitCount

/-- A row of the leaderboard. -/
def visitRow (p : Str × ℤ) : SystemVisitInfo := ⟨p.1, p.2⟩

section Rank

variable {names : List Str} {z : ZSet}

theorem mem_revisited {m : Str} : m ∈ revisited names ↔ 2 ≤ names.count m := by
  rw [revisited, Finset.mem_filter, List.mem_toFinset]
  refine ⟨fun h => h.2, fun h => ⟨?_, h⟩⟩
  exact List.count_pos_iff.mp (by omega)

theorem mem_above (hz : ∀ m, z.lookup m = if m ∈ names then some (names.count m : ℤ) else none)
    {p : Str × ℤ} :
    p ∈ (zrevrange z).filter (fun p => decide (1 < p.2)) ↔ p.2 = names.count p.1 ∧ 2 ≤ names.count p.1 := by
  rw [List.mem_filter, mem_zrevrange, hz, decide_eq_true_eq]
  constructor
  · rintro ⟨hl, hp⟩
    split_ifs at hl with hm
    have hc := Option.some.inj hl
    omega
  · rintro ⟨hp, hc⟩
    rw [if_pos (List.count_pos_iff.mp (by omega)), hp]
    exact ⟨rfl, by omega⟩

theorem ranks_of_lookup (hz : ∀ m, z.lookup m = if m ∈ names then some (names.count m : ℤ) else none)
    (topN : ℕ) :
    Ranks names topN ((((zrevrange z).filter fun p => decide (1 < p.2)).take topN).map visitRow) := by
  generalize hL : (zrevrange z).filter (fun p => decide (1 < p.2)) = L
  have hmem : ∀ p, p ∈ L ↔ p.2 = names.count p.1 ∧ 2 ≤ names.count p.1 := fun p => by
    rw [← hL, mem_above hz]
  have hnodup : (L.map Prod.fst).Nodup := by
    rw [← hL]
    exact (zrevrange_nodup z).sublist (List.filter_sublist.map _)
  have hsorted : L.Pairwise fun a b => b.2 ≤ a.2 := by
    rw [← hL]
    exact (zrevrange_pairwise z).filter _
  have hcard : L.length = (revisited names).card := by
    rw [← List.length_map (f := Prod.fst), ← List.toFinset_card_of_nodup hnodup]
    congr 1
    ext m
    rw [List.mem_toFinset, mem_revisited, List.mem_map]
    constructor
    · rintro ⟨p, hp, rfl⟩
      exact ((hmem p).mp hp).2
    · exact fun h => ⟨(m, names.count m), (hmem _).mpr ⟨rfl, h⟩, rfl⟩
  refine ⟨?_, ?_, ?_, ?_, ?_⟩
  · rw [List.length_map, List.length_take, hcard]
  · rw [List.map_map]
    exact hnodup.sublist ((List.take_sublist topN L).map _)
  · intro r hr
    obtain ⟨p, hp, rfl⟩ := List.mem_map.mp hr
    exact (hmem p).mp (List.mem_of_mem_take hp)
  · rw [List.pairwise_map]
    exact hsorted.sublist (List.take_sublist _ _)
  · intro m hm hout r hr
    obtain ⟨p, hp, rfl⟩ := List.mem_map.mp hr
    -- the system stands behind the cut, and nothing behind it outranks what stands before it
    have hin : (m, (names.count m : ℤ)) ∈ L := (hmem _).mpr ⟨rfl, mem_revisited.mp hm⟩
    rw [← List.take_append_drop topN L] at hin hsorted
    rcases List.mem_append.mp hin with hin | hin
    · refine absurd (List.mem_map.mpr ⟨visitRow (m, names.count m), ?_, rfl⟩) hout
      exact List.mem_map_of_mem hin
    · exact (List.pairwise_append.mp hsorted).2.2 p hp _ hin

end Rank

/-- The bounded range is the head of the systems above the floor. -/
theorem getSystemVisits_of_zset {z : ZSet} {t : Time} {σ : Store} (hz : (σ.purge t).zset (wire systemVisits) = .ok z)
    (topN : ℤ) : DockingReader.getSystemVisits topN t σ =
      .ok ((((zrevrange z).filter fun p => decide (1 < p.2)).take topN.toNat).map visitRow) := by
  unfold DockingReader.getSystemVisits
  split_ifs with htop
  · rw [Int.toNat_of_nonpos htop]
    rfl
  · rw [hz]
    exact congrArg (fun l => Except.ok (l.map visitRow)) (zrevrangeByScore_eq 1 topN.toNat z)

/-- `GetSystemVisitsAsync` after any visits of one week: what filtering and cutting the whole sorted set would
give, which ranks the systems as they read back. -/
theorem getSystemVisits_ranks (I : Casing) (σ : Store) (h₀ : σ.val (wire systemVisits) = none)
    (visits : List Visit) (w : ℕ) (hweek : ∀ v ∈ visits, weekOf v.created = w ∧ weekOf v.now = w)
    (hsmall : visits.length < 2 ^ 53) (t : Time) (ht : weekOf t = w) (topN : ℤ) :
    ∃ z rows, ((visitAll I visits σ).purge t).zset (wire systemVisits) = .ok z ∧
      DockingReader.getSystemVisits topN t (visitAll I visits σ) = .ok rows ∧
      rows = (((zrevrange z).filter fun p => decide (1 < p.2)).take topN.toNat).map visitRow ∧
      Ranks (visits.map (Visit.member I)) topN.toNat rows ∧
      ∀ p ∈ zrevrange z, p.2 < 2 ^ 53 := by
  have hmissing : σ.lookup (wire systemVisits) = none := by
    rwa [Store.val, Option.map_eq_none_iff] at h₀
  have htally := tallied_visitAll I σ hmissing hweek
  have hnext := lt_getNextExpirationUtc t
  rw [getNextExpirationUtc, ht] at hnext
  obtain ⟨z, hz, hcount⟩ := htally.zset
  rw [← Store.zset_congr (htally.purge hnext.le)] at hz
  refine ⟨z, _, hz, getSystemVisits_of_zset hz topN, rfl, ranks_of_lookup hcount _, fun p hp => ?_⟩
  -- a double holds every count exactly
  rw [mem_zrevrange, hcount] at hp
  split_ifs at hp
  have hle : (visits.map (Visit.member I)).count p.1 ≤ visits.length :=
    List.count_le_length.trans (List.length_map _).le
  have hp := Option.some.inj hp
  omega

/-- Sol under two spellings, and Achenar once. -/
def solVisits : List Visit :=
  [⟨1000, 1200, lit "Sol"⟩, ⟨1500, 2000, lit "Achenar"⟩, ⟨1600, 2100, lit "SOL"⟩]

theorem getSystemVisits_ranks_sol :
    ∃ rows, DockingReader.getSystemVisits 25 3000 (visitAll asciiCasing solVisits ∅) = .ok rows ∧
      rows.length = 1 ∧ ∀ r ∈ rows, 2 ≤ ([lit "SOL", lit "ACHENAR", lit "SOL"]).count r.systemName := by
  obtain ⟨z, rows, -, hok, -, hranks, -⟩ := getSystemVisits_ranks asciiCasing ∅ rfl solVisits 0 (by decide)
    (by decide) 3000 (by decide) 25
  have hnames : solVisits.map (Visit.member asciiCasing) = [lit "SOL", lit "ACHENAR", lit "SOL"] := by decide
  rw [hnames] at hranks
  refine ⟨rows, hok, ?_, fun r hr => (hranks.exact r hr).2⟩
  rw [hranks.length]
  decide

/-- Two visits to a system whose name is half a surrogate pair: the row names a system that nobody visited. -/
theorem unpaired_name_counted :
    ¬ ∀ (I : Casing) (visits : List Visit) (w : ℕ),
      (∀ v ∈ visits, weekOf v.created = w ∧ weekOf v.now = w) → visits.length < 2 ^ 53 →
      ∀ (t : Time), weekOf t = w → ∀ (topN : ℤ) (rows : List SystemVisitInfo),
        DockingReader.getSystemVisits topN t (visitAll I visits ∅) = .ok rows → ∀ r ∈ rows,
          r.visitCount = visits.countP fun v => decide (I.toUpperInvariant v.systemName = r.systemName) := by
  intro hall
  have h := hall asciiCasing [⟨0, 0, [0xD800]⟩, ⟨0, 0, [0xD800]⟩] 0 (by decide) (by decide) 0 (by decide) 25
    [⟨[0xFFFD], 2⟩] (by decide +kernel) ⟨[0xFFFD], 2⟩ (by simp)
  exact absurd h (by decide)

end EliteEvents
