import EliteEvents.Proofs.BatchWindows
import EliteEvents.Proofs.DockingMap

/-! Complete batches, one after the other. What a folder lists and what a daily counter holds is read off the
history of the dockings: both go on while dockings follow each other within the thirty days, and start afresh
after a longer stretch without one. -/

namespace EliteEvents

open Text Redis RedisKeys TimedMap

/-- The batch of a call, run as a unit. -/
def Recording.execute (I : Casing) (σ : Store) (r : Recording) : Store :=
  execAll r.now (DockingWriter.batch I r.nextExpiration r.call) σ

/-- The batches one after the other, from an empty server. -/
def executeAll (I : Casing) (rs : List Recording) : Store := rs.foldl (Recording.execute I) ∅

/-- A docking as an event: filed in a folder under a name, with a score. -/
abbrev Filing := TimedMap.Event (Str × Str) ℤ

def Slot.filing (r : Slot) (now : Time) (score : ℤ) : Filing := ⟨now, (r.folderKey, r.member), score⟩

/-- What a call files; a visit files nothing. -/
def Recording.filing (I : Casing) (r : Recording) : Option Filing :=
  match r.call with
  | .fleetCarrierDocking c t => some ((dailySlot (I.upper c) t.date).filing r.now t.toUnixTimeSeconds)
  | .stationDocking s x _ t => some ((stationSlot (I.upper s) x).filing r.now t.toUnixTimeSeconds)
  | .systemVisit _ => none

def filings (I : Casing) (rs : List Recording) : List Filing := rs.filterMap (Recording.filing I)

/-- The dockings filed in a folder, newest first. -/
def folderHistory (K : Str) (es : List Filing) : List Filing := history (fun k => decide (k.1 = K)) es

/-- The dockings filed in a folder under one name, newest first. -/
def itemHistory (K m : Str) (es : List Filing) : List Filing := history (fun k => decide (k = (K, m))) es

section Effects

variable {now : Time} {σ σ' : Store} {I : Casing}

theorem lookup_incr {k : Str} (h : (Cmd.incr k).run now σ = .ok σ') :
    σ'.lookup k = some ⟨.str (Decimal.text (σ.counter k + 1)), σ.deadline k⟩ ∧
      ∀ K, K ≠ k → σ'.lookup K = σ.lookup K := by
  obtain ⟨-, -, rfl⟩ := incr_ok h
  exact ⟨Store.lookup_put_self σ k rfl, fun K hK => Store.lookup_put_ne σ hK _⟩

/-- The two commands on a daily counter. -/
theorem counter_effect (u : UpperName) (d : Str) (ttl : Time) (hT : Typed σ) (hF : σ.Fresh now)
    (he : execAll now [.incr (wire (Entity.carrierDaily u d).key),
      .expire (wire (Entity.carrierDaily u d).key) ttl] σ = σ') :
    σ'.lookup (wire (Entity.carrierDaily u d).key) =
        some ⟨.str (Decimal.text (σ.counter (wire (Entity.carrierDaily u d).key) + 1)), some (now + ttl)⟩ ∧
      (∀ K, K ≠ wire (Entity.carrierDaily u d).key → σ'.lookup K = σ.lookup K) ∧ Typed σ' ∧ σ'.Fresh now := by
  obtain ⟨h₁, hT₁, hF₁⟩ := (Schematic.incr u d).exec_fresh hT hF
  obtain ⟨h₂, hT₂, hF₂⟩ := (Schematic.expire (wire (Entity.carrierDaily u d).key) ttl).exec_fresh hT₁ hF₁
  rw [show Cmd.exec now (.expire (wire (Entity.carrierDaily u d).key) ttl) _ = σ' from he] at h₂ hT₂ hF₂
  obtain ⟨hl₁, hne₁⟩ := lookup_incr h₁
  obtain ⟨hl₂, hne₂⟩ := lookup_expire h₂ hl₁
  refine ⟨hl₂, fun K hK => ?_, hT₂, hF₂⟩
  rw [hne₂ K hK, hne₁ K hK]

/-- What a complete docking does to the store, where no key has lapsed. -/
structure Files (now : Time) (r : Slot) (score : ℤ) (σ σ' : Store) : Prop where
  typed : Typed σ'
  folder : ∃ z, σ.zset r.folderKey = .ok z ∧
    σ'.lookup r.folderKey = some ⟨.zset (z.insert r.member score), some (now + dataExpiration)⟩
  other : ∀ K, K ≠ r.itemKey → K ≠ r.folderKey → (∀ κ : Catalog, K ≠ wire κ.indexEntity.key) →
    σ'.lookup K = σ.lookup K

theorem files_stationDocking (nextExpiration : Time) (s x y : Str) (t : DateTimeOffset) (hT : Typed σ)
    (he : execAll now (DockingWriter.batch I nextExpiration (.stationDocking s x y t)) σ = σ') :
    Files now (stationSlot (I.upper s) x) t.toUnixTimeSeconds (σ.purge now) σ' := by
  obtain ⟨-, z, -, hz, -, hl, hne, hT'⟩ := docking_effect I nextExpiration s x y t hT he
  exact ⟨hT', ⟨z, hz, hl⟩, fun K h1 h2 h3 => hne K h1 h2 (h3 .system)⟩

theorem files_fleetCarrierDocking (nextExpiration : Time) (c : Str) (t : DateTimeOffset) (hT : Typed σ)
    (he : execAll now (DockingWriter.batch I nextExpiration (.fleetCarrierDocking c t)) σ = σ') :
    Files now (dailySlot (I.upper c) t.date) t.toUnixTimeSeconds (σ.purge now) σ' ∧
      σ'.lookup (dailySlot (I.upper c) t.date).itemKey = some ⟨.str (Decimal.text
        ((σ.purge now).counter (dailySlot (I.upper c) t.date).itemKey + 1)), some (now + dataExpiration)⟩ := by
  have hslot : IsSlot (dailySlot (I.upper c) t.date) := .daily _ _
  have hif := hslot.item_ne_folder hslot
  have hii := hslot.item_ne_index .carrier
  have hfi := hslot.folder_ne_index .carrier
  rw [batch_fleetCarrierDocking, execAll_purge] at he
  obtain ⟨τ₁, hτ₁⟩ : ∃ τ, execAll now [.incr (wire (Entity.carrierDaily (I.upper c) t.date).key),
      .expire (wire (Entity.carrierDaily (I.upper c) t.date).key) dataExpiration] (σ.purge now) = τ := ⟨_, rfl⟩
  obtain ⟨τ₂, hτ₂⟩ : ∃ τ, execAll now [.zadd (wire (Entity.carrierDays (I.upper c)).key)
      [(wire t.date, t.toUnixTimeSeconds)],
      .expire (wire (Entity.carrierDays (I.upper c)).key) dataExpiration] τ₁ = τ := ⟨_, rfl⟩
  have h₃ : Cmd.exec now (.zadd (wire Entity.carrierIndex.key)
      [(wire (normalizeCarrier I c), indexScore)]) τ₂ = σ' := by
    rw [← he, ← hτ₂, ← hτ₁]
    simp only [execAll, List.foldl_cons, List.foldl_nil]
  obtain ⟨hl₁, hne₁, hT₁, hF₁⟩ := counter_effect (I.upper c) t.date dataExpiration (hT.purge now)
    (Store.fresh_purge now σ) hτ₁
  obtain ⟨z, hz, hl₂, hne₂, hT₂, hF₂⟩ := member_effect (e := .carrierDays (I.upper c)) trivial
    (wire t.date) t.toUnixTimeSeconds dataExpiration hT₁ hF₁ hτ₂
  obtain ⟨hr₃, hT₃, -⟩ := (Schematic.zadd .carrierIndex
    [(wire (normalizeCarrier I c), indexScore)] trivial).exec_fresh hT₂ hF₂
  rw [h₃] at hr₃ hT₃
  obtain ⟨-, -, -, hne₃⟩ := lookup_zadd (by simp) hr₃
  refine ⟨⟨hT₃, ⟨z, ?_, ?_⟩, fun K h1 h2 h3 => ?_⟩, ?_⟩
  · rw [← hz]
    exact (Store.zset_congr (hne₁ _ hif.symm)).symm
  · rw [hne₃ _ hfi]
    exact hl₂
  · rw [hne₃ K (h3 .carrier), hne₂ K h2, hne₁ K h1]
  · rw [hne₃ _ hii, hne₂ _ hif]
    exact hl₁

theorem visit_effect (nextExpiration : Time) (s : Str) (hT : Typed σ)
    (he : execAll now (DockingWriter.batch I nextExpiration (.systemVisit s)) σ = σ') :
    Typed σ' ∧ ∀ K, K ≠ wire Entity.systemVisits.key → σ'.lookup K = (σ.purge now).lookup K := by
  have hbatch : DockingWriter.batch I nextExpiration (.systemVisit s) =
      [.zincrby (wire Entity.systemVisits.key) 1 (wire (normalizeSystem I s)),
        .expireAt (wire Entity.systemVisits.key) nextExpiration] := rfl
  rw [hbatch, execAll_purge] at he
  obtain ⟨h₁, hT₁, hF₁⟩ := (Schematic.zincrby .systemVisits 1 (wire (normalizeSystem I s))
    trivial).exec_fresh (hT.purge now) (Store.fresh_purge now σ)
  obtain ⟨h₂, hT₂, -⟩ := (Schematic.expireAt (wire Entity.systemVisits.key) nextExpiration).exec_fresh hT₁ hF₁
  rw [show Cmd.exec now (.expireAt (wire Entity.systemVisits.key) nextExpiration) _ = σ' from he] at h₂ hT₂
  obtain ⟨z, -, hl₁, hne₁⟩ := lookup_zincrby h₁
  obtain ⟨-, hne₂⟩ := lookup_expireAt h₂ hl₁
  refine ⟨hT₂, fun K hK => ?_⟩
  rw [hne₂ K hK, hne₁ K hK]

end Effects

section Mirror

variable {T t : Time} {σ σ' : Store} {o : Option Entry} {es : List Filing} {I : Casing}

/-- A key that holds `P` of what is live, with the deadline of the newest docking, and is gone if nothing is. -/
def Reflects (P : List Filing → Value → Prop) (live : List Filing) (o : Option Entry) : Prop :=
  match live with
  | [] => o = none
  | e :: l => ∃ v, o = some ⟨v, some (e.time + dataExpiration)⟩ ∧ P (e :: l) v

/-- A folder has the score of the newest docking under every name. -/
def Lists (l : List Filing) (v : Value) : Prop :=
  ∃ z, v = .zset z ∧ ∀ m, z.lookup m = (l.find? fun e => decide (e.key.2 = m)).map Event.value

/-- A daily counter counts the dockings. -/
def Counts (l : List Filing) (v : Value) : Prop := v = .str (Decimal.text l.length)

/-- The store holds what the dockings say at `T`. -/
structure FiledStore (es : List Filing) (T : Time) (σ : Store) : Prop where
  typed : Typed σ
  folder : ∀ r, IsSlot r → Reflects Lists (live dataExpiration T (folderHistory r.folderKey es)) (σ.lookup r.folderKey)
  counter : ∀ c d, Reflects Counts (live dataExpiration T
    (itemHistory (dailySlot c d).folderKey (dailySlot c d).member es)) (σ.lookup (dailySlot c d).itemKey)

theorem Reflects.purge {P : List Filing → Value → Prop} {h : List Filing} (hm : Reflects P (live dataExpiration T h) o)
    (hT : T ≤ t) : Reflects P (live dataExpiration t h) (o.filter fun e => !e.lapsed t) := by
  rcases live_later dataExpiration (h := h) hT with ⟨h1, h2⟩ | ⟨e, l, h1, h2⟩
  · rw [h1] at hm
    rw [h2, show o = none from hm]
    rfl
  · rw [h1] at hm
    obtain ⟨v, rfl, hP⟩ := hm
    rw [h2, Option.filter_some]
    split_ifs with ht hl hl
    · exact ⟨v, rfl, hP⟩
    · exact absurd (by simpa [Entry.lapsed] using ht) hl
    · exact absurd (by simpa [Entry.lapsed] using hl) ht
    · rfl

theorem FiledStore.purge (h : FiledStore es T σ) (hT : T ≤ t) : FiledStore es t (σ.purge t) := by
  refine ⟨h.typed.purge t, fun r hr => ?_, fun c d => ?_⟩
  · rw [Store.lookup_purge]
    exact (h.folder r hr).purge hT
  · rw [Store.lookup_purge]
    exact (h.counter c d).purge hT

theorem filedStore_empty : FiledStore [] 0 ∅ := ⟨typed_empty, fun _ _ => rfl, fun _ _ => rfl⟩

/-- The members of a folder and their scores. -/
theorem FiledStore.zset (h : FiledStore es T σ) {r : Slot} (hr : IsSlot r) : ∃ z, σ.zset r.folderKey = .ok z ∧
    ∀ m, z.lookup m = ((live dataExpiration T (folderHistory r.folderKey es)).find?
      fun e => decide (e.key.2 = m)).map Event.value := by
  have hholds := h.folder r hr
  cases hl : live dataExpiration T (folderHistory r.folderKey es) with
  | nil =>
    rw [hl] at hholds
    exact ⟨∅, Store.zset_of_missing hholds, fun m => rfl⟩
  | cons e l =>
    rw [hl] at hholds
    obtain ⟨v, hv, z, rfl, hz⟩ := hholds
    exact ⟨z, Store.zset_of_lookup hv, hz⟩

theorem FiledStore.counter_eq (h : FiledStore es T σ) (c : UpperName) (d : Str) :
    σ.counter (dailySlot c d).itemKey =
      (live dataExpiration T (itemHistory (dailySlot c d).folderKey (dailySlot c d).member es)).length := by
  have hholds := h.counter c d
  cases hl : live dataExpiration T (itemHistory (dailySlot c d).folderKey (dailySlot c d).member es) with
  | nil =>
    rw [hl] at hholds
    rw [Store.counter, Store.val, show σ.lookup _ = none from hholds]
    rfl
  | cons e l =>
    rw [hl] at hholds
    obtain ⟨v, hv, rfl⟩ := hholds
    simp [Store.counter, Store.val, hv, Value.counter]

section Filing

variable (r : Slot) (now : Time) (score : ℤ)

theorem folderHistory_append (K : Str) (es : List Filing) :
    folderHistory K (es ++ [r.filing now score]) =
      if r.folderKey = K then r.filing now score :: folderHistory K es else folderHistory K es := by
  simp only [folderHistory, history_append, Slot.filing, decide_eq_true_eq]

theorem itemHistory_append (K m : Str) (es : List Filing) :
    itemHistory K m (es ++ [r.filing now score]) =
      if (r.folderKey, r.member) = (K, m) then r.filing now score :: itemHistory K m es else itemHistory K m es := by
  simp only [itemHistory, history_append, Slot.filing, decide_eq_true_eq]

/-- A docking at `now` goes on what was live then. -/
theorem live_filing (h : List Filing) : live dataExpiration now (r.filing now score :: h) =
    r.filing now score :: live dataExpiration now h := by
  have halive : now ≤ (r.filing now score).time + dataExpiration := Nat.le_add_right _ _
  rw [live, if_pos halive, session_cons]
  rfl

end Filing

/-- The folder of a docking. -/
theorem Files.lists {r : Slot} {now : Time} {score : ℤ} (hf : Files now r score σ σ') (hr : IsSlot r)
    (h : FiledStore es now σ) : Reflects Lists
      (live dataExpiration now (folderHistory r.folderKey (es ++ [r.filing now score]))) (σ'.lookup r.folderKey) := by
  obtain ⟨z, hz, hl⟩ := hf.folder
  obtain ⟨z', hz', hlookup⟩ := h.zset hr
  cases hz.symm.trans hz'
  rw [folderHistory_append, if_pos rfl, live_filing, hl]
  refine ⟨_, rfl, _, rfl, fun m => ?_⟩
  by_cases hm : r.member = m
  · subst hm
    rw [AList.lookup_insert, List.find?_cons_of_pos (by simp [Slot.filing])]
    rfl
  · rw [AList.lookup_insert_ne (Ne.symm hm), List.find?_cons_of_neg (by simp [Slot.filing, hm])]
    exact hlookup m

/-- The counter of a docking by a carrier. -/
theorem counts_of_incr {c : UpperName} {d : Str} {now : Time} {score : ℤ} (h : FiledStore es now σ)
    (hl : σ'.lookup (dailySlot c d).itemKey = some ⟨.str (Decimal.text (σ.counter (dailySlot c d).itemKey + 1)),
      some (now + dataExpiration)⟩) : Reflects Counts (live dataExpiration now (itemHistory (dailySlot c d).folderKey
        (dailySlot c d).member (es ++ [(dailySlot c d).filing now score]))) (σ'.lookup (dailySlot c d).itemKey) := by
  rw [itemHistory_append, if_pos rfl, live_filing, hl, h.counter_eq c d]
  exact ⟨_, rfl, rfl⟩

/-- The item of a carrier's slot is found by its folder and its name. -/
theorem daily_itemKey {c c' : UpperName} {d d' : Str} (hf : (dailySlot c d).folderKey = (dailySlot c' d').folderKey)
    (hm : (dailySlot c d).member = (dailySlot c' d').member) :
    (dailySlot c d).itemKey = (dailySlot c' d').itemKey := by
  have hc : c.encode = c'.encode := Entity.carrierDays.inj (encode_eq_of_wire_key hf)
  have hd : wire d = wire d' := hm
  show wire (Entity.carrierDaily c d).key = wire (Entity.carrierDaily c' d').key
  rw [wire_key, wire_key, Entity.encode, Entity.encode, hc, hd]

/-- One docking, one event: the store goes on holding what the dockings say. -/
theorem FiledStore.file {r : Slot} {now : Time} {score : ℤ} (h : FiledStore es now σ) (hr : IsSlot r)
    (hf : Files now r score σ σ')
    (hcount : ∀ c d, r = dailySlot c d → σ'.lookup r.itemKey =
      some ⟨.str (Decimal.text (σ.counter r.itemKey + 1)), some (now + dataExpiration)⟩) :
    FiledStore (es ++ [r.filing now score]) now σ' := by
  refine ⟨hf.typed, fun r' hr' => ?_, fun c d => ?_⟩
  · by_cases hk : r.folderKey = r'.folderKey
    · rw [← hk]
      exact hf.lists hr h
    · rw [folderHistory_append, if_neg hk, hf.other _ (hr.item_ne_folder hr').symm (Ne.symm hk) hr'.folder_ne_index]
      exact h.folder r' hr'
  · have hr' : IsSlot (dailySlot c d) := .daily c d
    by_cases hk : (r.folderKey, r.member) = ((dailySlot c d).folderKey, (dailySlot c d).member)
    · obtain ⟨hfolder, hmember⟩ := Prod.mk.inj hk
      cases hr with
      | station s x => cases encode_eq_of_wire_key hfolder
      | daily c' d' =>
        have hitem := daily_itemKey hfolder hmember
        rw [← hfolder, ← hmember, ← hitem]
        exact counts_of_incr h (hcount c' d' rfl)
    · have hitem : (dailySlot c d).itemKey ≠ r.itemKey := by
        intro he
        obtain ⟨hfolder, hmember⟩ := hr'.unique hr he
        exact hk (Prod.ext hfolder.symm hmember.symm)
      rw [itemHistory_append, if_neg hk, hf.other _ hitem (hr'.item_ne_folder hr) hr'.item_ne_index]
      exact h.counter c d

/-- A visit is no docking. -/
theorem FiledStore.visit {now : Time} (h : FiledStore es now σ) (hT : Typed σ')
    (hne : ∀ K, K ≠ wire Entity.systemVisits.key → σ'.lookup K = σ.lookup K) : FiledStore es now σ' := by
  refine ⟨hT, fun r hr => ?_, fun c d => ?_⟩
  · rw [hne _ fun hk => by cases hr <;> cases encode_eq_of_wire_key hk]
    exact h.folder r hr
  · rw [hne _ fun hk => by cases encode_eq_of_wire_key hk]
    exact h.counter c d

theorem FiledStore.execute (h : FiledStore es T σ) (r : Recording) (hT : T ≤ r.now) :
    FiledStore (es ++ (r.filing I).toList) r.now (r.execute I σ) := by
  have hp := h.purge hT
  obtain ⟨call, nextExpiration, now⟩ := r
  cases call with
  | fleetCarrierDocking c t =>
    obtain ⟨hf, hl⟩ := files_fleetCarrierDocking nextExpiration c t h.typed
      (rfl : execAll now (DockingWriter.batch I nextExpiration (.fleetCarrierDocking c t)) σ = _)
    exact hp.file (.daily _ _) hf fun _ _ _ => hl
  | stationDocking s x y t =>
    have hf := files_stationDocking nextExpiration s x y t h.typed
      (rfl : execAll now (DockingWriter.batch I nextExpiration (.stationDocking s x y t)) σ = _)
    exact hp.file (.station _ _) hf fun c d he => by cases congrArg Slot.folder he
  | systemVisit s =>
    obtain ⟨hT', hne⟩ := visit_effect nextExpiration s h.typed
      (rfl : execAll now (DockingWriter.batch I nextExpiration (.systemVisit s)) σ = _)
    rw [show (Recording.filing I ⟨.systemVisit s, nextExpiration, now⟩).toList = [] from rfl, List.append_nil]
    exact hp.visit hT' hne

/-- Calls in the order of server time. -/
def InOrder (rs : List Recording) : Prop := rs.Pairwise fun a b => a.now ≤ b.now

/-- The whole run, at any later time. -/
theorem filedStore_executeAll (I : Casing) {rs : List Recording} (hc : InOrder rs) (ht : ∀ r ∈ rs, r.now ≤ t) :
    FiledStore (filings I rs) t ((executeAll I rs).purge t) := by
  suffices h : ∃ T, (T = 0 ∨ ∃ r ∈ rs, T = r.now) ∧ FiledStore (filings I rs) T (executeAll I rs) by
    obtain ⟨T, hT, h⟩ := h
    refine h.purge ?_
    rcases hT with rfl | ⟨r, hr, rfl⟩
    · exact Nat.zero_le _
    · exact ht r hr
  clear ht
  induction rs using List.reverseRecOn with
  | nil => exact ⟨0, .inl rfl, filedStore_empty⟩
  | append_singleton rs r ih =>
    obtain ⟨hc', -, hlast⟩ := List.pairwise_append.mp hc
    obtain ⟨T, hT, h⟩ := ih hc'
    have hle : T ≤ r.now := by
      rcases hT with rfl | ⟨r', hr', rfl⟩
      · exact Nat.zero_le _
      · exact hlast r' hr' r (List.mem_singleton_self r)
    refine ⟨r.now, .inr ⟨r, by simp, rfl⟩, ?_⟩
    have hstep := h.execute (I := I) r hle
    rw [executeAll, List.foldl_append, List.foldl_cons, List.foldl_nil, filings, List.filterMap_append,
      List.filterMap_cons, List.filterMap_nil]
    cases hf : r.filing I with
    | none =>
      rw [hf] at hstep
      exact hstep
    | some e =>
      rw [hf] at hstep
      exact hstep

end Mirror

end EliteEvents
