import EliteEvents.Lib.RedisLemmas

/-! The contents of a keyspace as its readers see them, without the order in which an aggregate
stores its elements and without the deadlines. On contents the adding commands are functions, and
most of them commute. -/

namespace Redis

open Text

/-- A value as it is read: its text, its fields, or its members with their scores. -/
inductive View
  | str (s : Str)
  | hash (fields : Str → Option Str)
  | zset (scores : Str → Option ℤ)

def Value.view : Value → View
  | .str s => .str s
  | .hash h => .hash fun f => h.lookup f
  | .zset z => .zset fun m => z.lookup m

abbrev Contents := Str → Option View

def Store.contents (σ : Store) : Contents := fun k => (σ.val k).map Value.view

theorem hget_congr {σ σ' : Store} (h : σ.contents = σ'.contents) (k f : Str) : σ.hget k f = σ'.hget k f := by
  have hview : ∀ σ : Store, σ.hget k f = (σ.contents k).bind fun v => match v with
      | .hash fields => fields f
      | _ => none := by
    intro σ
    unfold Store.hget Store.contents
    cases σ.val k with
    | none => rfl
    | some v => cases v <;> rfl
  rw [hview, hview, h]

/-- The fields of a hash, or of a missing key. -/
def View.fields : Option View → Option (Str → Option Str)
  | none => some fun _ => none
  | some (.hash h) => some h
  | some _ => none

/-- The scores of a sorted set, or of a missing key. -/
def View.scores : Option View → Option (Str → Option ℤ)
  | none => some fun _ => none
  | some (.zset z) => some z
  | some _ => none

@[simp] theorem View.fields_hash (h : Str → Option Str) : View.fields (some (.hash h)) = some h := rfl

@[simp] theorem View.scores_zset (z : Str → Option ℤ) : View.scores (some (.zset z)) = some z := rfl

/-- New entries over old ones, the last one first. -/
def overlay {β : Type} (ps : List (Str × β)) (h : Str → Option β) : Str → Option β :=
  ps.foldl (fun h p => Function.update h p.1 (some p.2)) h

/-- A counter after an increment, if it is an integer. -/
def incremented (n : ℤ) : Option Str → Option Str
  | none => some (Decimal.text n)
  | some s => (Decimal.ofText s).map fun m => Decimal.text (m + n)

/-- What an adding command makes of the value it targets; an error leaves the value alone. -/
def Cmd.revise : Cmd → Option View → Option View
  | .incr _, none => some (.str (Decimal.text 1))
  | .incr _, some (.str s) => some (.str ((incremented 1 (some s)).getD s))
  | .hincrby _ f n, v =>
    match View.fields v with
    | none => v
    | some h => match incremented n (h f) with
      | none => v
      | some s => some (.hash (Function.update h f (some s)))
  | .hset _ fs, v =>
    match View.fields v with
    | none => v
    | some h => some (.hash (overlay fs h))
  | .zadd _ es, v =>
    match View.scores v with
    | none => v
    | some z => some (.zset (overlay es z))
  | .zincrby _ n m, v =>
    match View.scores v with
    | none => v
    | some z => some (.zset (Function.update z m (some ((z m).getD 0 + n))))
  | _, v => v

/-- A command on contents. -/
def Cmd.act (c : Cmd) (V : Contents) : Contents :=
  match c.target with
  | none => V
  | some k => Function.update V k (c.revise (V k))

section Apply

variable {σ : Store} {k : Str}

theorem contents_put {v : Value} (hv : v.isEmpty = false) :
    (σ.put k v).contents = Function.update σ.contents k (some v.view) := by
  funext K
  by_cases hk : K = k
  · subst hk
    rw [Function.update_self, Store.contents, Store.val_put_self, hv]
    rfl
  · rw [Function.update_of_ne hk, Store.contents, Store.val_put_ne σ hk, Store.contents]

theorem fields_of_hash {h : Hash} (hh : σ.hash k = .ok h) :
    View.fields (σ.contents k) = some fun f => h.lookup f := by
  unfold Store.hash at hh
  unfold Store.contents
  split at hh
  · rename_i hv
    cases hh
    rw [hv]
    rfl
  · rename_i hv
    cases hh
    rw [hv]
    rfl
  · cases hh

theorem fields_of_error {e : Error} (hh : σ.hash k = .error e) : View.fields (σ.contents k) = none := by
  unfold Store.hash at hh
  unfold Store.contents
  split at hh
  · cases hh
  · cases hh
  · rename_i v hne hv
    rw [hv]
    cases v with
    | hash h => exact absurd rfl (hne h)
    | _ => rfl

theorem scores_of_zset {z : ZSet} (hz : σ.zset k = .ok z) :
    View.scores (σ.contents k) = some fun m => z.lookup m := by
  unfold Store.zset at hz
  unfold Store.contents
  split at hz
  · rename_i hv
    cases hz
    rw [hv]
    rfl
  · rename_i hv
    cases hz
    rw [hv]
    rfl
  · cases hz

theorem scores_of_error {e : Error} (hz : σ.zset k = .error e) : View.scores (σ.contents k) = none := by
  unfold Store.zset at hz
  unfold Store.contents
  split at hz
  · cases hz
  · cases hz
  · rename_i v hne hv
    rw [hv]
    cases v with
    | zset z => exact absurd rfl (hne z)
    | _ => rfl

theorem lookup_insert_eq_update {β : Type} (h : AList fun _ : Str => β) (f : Str) (s : β) :
    (fun g => (h.insert f s).lookup g) = Function.update (fun g => h.lookup g) f (some s) := by
  funext g
  by_cases hg : g = f
  · subst hg
    rw [Function.update_self, AList.lookup_insert]
  · rw [Function.update_of_ne hg, AList.lookup_insert_ne hg]

theorem lookup_foldl_insert {β : Type} (ps : List (Str × β)) (h : AList fun _ : Str => β) :
    (fun g => (ps.foldl (fun (h : AList fun _ : Str => β) p => h.insert p.1 p.2) h).lookup g) =
      overlay ps fun g => h.lookup g := by
  induction ps generalizing h with
  | nil => rfl
  | cons p ps ih => rw [List.foldl_cons, ih, lookup_insert_eq_update, overlay, overlay, List.foldl_cons]

private theorem contents_of_run {c : Cmd} {now : Time} {σ' : Store} (h : c.run now σ = .ok σ')
    (hadd : ∀ K, c.OnlyAdds now K) (ht : c.target = none) : σ'.contents = σ.contents := by
  funext K
  rw [Store.contents, run_val_of_target_ne h (hadd K) (by rw [ht]; exact Option.some_ne_none K ∘ Eq.symm),
    Store.contents]

/-- On contents a command acts by what it makes of its target alone. -/
theorem contents_apply {c : Cmd} {now : Time} (hadd : ∀ K, c.OnlyAdds now K) (hv : c.Nonvoid) :
    (c.apply now σ).contents = c.act σ.contents := by
  cases c with
  | incr k =>
    simp only [Cmd.apply, Cmd.run, Cmd.act, Cmd.target]
    have hval : σ.contents k = (σ.val k).map Value.view := rfl
    cases hv : σ.val k with
    | none =>
      rw [hv] at hval
      rw [hval]
      exact contents_put rfl
    | some v =>
      rw [hv] at hval
      cases v with
      | str s =>
        rw [hval]
        simp only [Option.map_some, Value.view, Cmd.revise, incremented]
        cases hs : Decimal.ofText s with
        | none =>
          simp only [Option.map_none, Option.getD_none]
          exact (Function.update_eq_self_iff.mpr hval.symm).symm
        | some n => exact contents_put rfl
      | hash h =>
        rw [hval]
        exact (Function.update_eq_self_iff.mpr hval.symm).symm
      | zset z =>
        rw [hval]
        exact (Function.update_eq_self_iff.mpr hval.symm).symm
  | hincrby k f n =>
    simp only [Cmd.apply, Cmd.run, Cmd.act, Cmd.target, Cmd.revise]
    cases hh : σ.hash k with
    | error e =>
      rw [fields_of_error hh]
      exact (Function.update_eq_self k _).symm
    | ok h =>
      rw [fields_of_hash hh]
      simp only
      cases hl : h.lookup f with
      | none =>
        simp only [incremented]
        rw [contents_put isEmpty_insert, Value.view, lookup_insert_eq_update]
      | some s =>
        simp only [incremented]
        cases hs : Decimal.ofText s with
        | none => exact (Function.update_eq_self k _).symm
        | some m =>
          simp only [Option.map_some]
          rw [contents_put isEmpty_insert, Value.view, lookup_insert_eq_update]
  | hset k fs =>
    simp only [Cmd.apply, Cmd.run, Cmd.act, Cmd.target, Cmd.revise]
    cases hh : σ.hash k with
    | error e =>
      rw [fields_of_error hh]
      exact (Function.update_eq_self k _).symm
    | ok h =>
      rw [fields_of_hash hh]
      simp only [Except.map]
      rw [contents_put (isEmpty_addFields hv), Value.view, addFields, lookup_foldl_insert]
  | zadd k es =>
    simp only [Cmd.apply, Cmd.run, Cmd.act, Cmd.target, Cmd.revise]
    cases hz : σ.zset k with
    | error e =>
      rw [scores_of_error hz]
      exact (Function.update_eq_self k _).symm
    | ok z =>
      rw [scores_of_zset hz]
      simp only [Except.map]
      rw [contents_put (isEmpty_addMembers hv), Value.view, addMembers, lookup_foldl_insert]
  | zincrby k n m =>
    simp only [Cmd.apply, Cmd.run, Cmd.act, Cmd.target, Cmd.revise]
    cases hz : σ.zset k with
    | error e =>
      rw [scores_of_error hz]
      exact (Function.update_eq_self k _).symm
    | ok z =>
      rw [scores_of_zset hz]
      simp only [Except.map]
      rw [contents_put isEmpty_zset_insert, Value.view, lookup_insert_eq_update]
  | zrem k ms => exact absurd rfl (hadd k)
  | set k v ttl => exact absurd rfl (hadd k)
  | expire k ttl => exact contents_of_run rfl hadd rfl
  | expireAt k deadline => exact contents_of_run rfl hadd rfl
  | del ks => exact contents_of_run rfl hadd rfl

end Apply

/-! Commands that commute. -/

/-- Commands on different keys, twice the same command, or commands that write different parts of
one value. -/
inductive Cmd.Commutes : Cmd → Cmd → Prop
  | idle {c d : Cmd} (h : c.target = none) : Commutes c d
  | apart {c d : Cmd} (h : c.target ≠ d.target) : Commutes c d
  | same (c : Cmd) : Commutes c c
  | count (k f : Str) (n : ℤ) (fs : List (Str × Str)) (h : f ∉ fs.map Prod.fst) :
      Commutes (.hincrby k f n) (.hset k fs)
  | scores (k m m' : Str) (x x' : ℤ) (h : m ≠ m') : Commutes (.zadd k [(m, x)]) (.zadd k [(m', x')])
  | increments (k m m' : Str) (n n' : ℤ) (h : m ≠ m') : Commutes (.zincrby k n m) (.zincrby k n' m')
  | symm {c d : Cmd} (h : Commutes c d) : Commutes d c

section Commutes

theorem act_idle {c : Cmd} (h : c.target = none) (V : Contents) : c.act V = V := by
  unfold Cmd.act
  rw [h]

theorem act_target {c : Cmd} {k : Str} (h : c.target = some k) (V : Contents) :
    c.act V = Function.update V k (c.revise (V k)) := by
  unfold Cmd.act
  rw [h]

/-- Two commands on one key. -/
theorem act_comm_of_revise {c d : Cmd} {k : Str} (hc : c.target = some k) (hd : d.target = some k)
    (h : ∀ v, d.revise (c.revise v) = c.revise (d.revise v)) (V : Contents) :
    d.act (c.act V) = c.act (d.act V) := by
  rw [act_target hc, act_target hd, act_target hd, act_target hc, Function.update_idem,
    Function.update_idem, Function.update_self, Function.update_self, h]

private theorem overlay_of_notMem {f : Str} {fs : List (Str × Str)} (hf : f ∉ fs.map Prod.fst)
    (h : Str → Option Str) : overlay fs h f = h f := by
  unfold overlay
  induction fs generalizing h with
  | nil => rfl
  | cons p fs ih =>
    rw [List.map_cons, List.mem_cons, not_or] at hf
    rw [List.foldl_cons, ih hf.2, Function.update_of_ne hf.1]

private theorem overlay_update {f : Str} {fs : List (Str × Str)} (hf : f ∉ fs.map Prod.fst)
    (h : Str → Option Str) (s : Option Str) :
    overlay fs (Function.update h f s) = Function.update (overlay fs h) f s := by
  unfold overlay
  induction fs generalizing h with
  | nil => rfl
  | cons p fs ih =>
    rw [List.map_cons, List.mem_cons, not_or] at hf
    rw [List.foldl_cons, List.foldl_cons, ← ih hf.2, Function.update_comm (Ne.symm hf.1)]

private theorem revise_count {k f : Str} {n : ℤ} {fs : List (Str × Str)} (hf : f ∉ fs.map Prod.fst)
    (v : Option View) : (Cmd.hset k fs).revise ((Cmd.hincrby k f n).revise v) =
      (Cmd.hincrby k f n).revise ((Cmd.hset k fs).revise v) := by
  cases hv : View.fields v with
  | none => simp only [Cmd.revise, hv]
  | some h =>
    simp only [Cmd.revise, hv]
    cases hi : incremented n (h f) with
    | none => simp only [hv, View.fields_hash, overlay_of_notMem hf, hi]
    | some s => simp only [View.fields_hash, overlay_of_notMem hf, hi, overlay_update hf]

private theorem revise_scores {k m m' : Str} {x x' : ℤ} (hm : m ≠ m') (v : Option View) :
    (Cmd.zadd k [(m', x')]).revise ((Cmd.zadd k [(m, x)]).revise v) =
      (Cmd.zadd k [(m, x)]).revise ((Cmd.zadd k [(m', x')]).revise v) := by
  cases hv : View.scores v with
  | none => simp only [Cmd.revise, hv]
  | some z =>
    simp only [Cmd.revise, hv, View.scores_zset, overlay, List.foldl_cons, List.foldl_nil]
    rw [Function.update_comm hm]

private theorem revise_increments {k m m' : Str} {n n' : ℤ} (hm : m ≠ m') (v : Option View) :
    (Cmd.zincrby k n' m').revise ((Cmd.zincrby k n m).revise v) =
      (Cmd.zincrby k n m).revise ((Cmd.zincrby k n' m').revise v) := by
  cases hv : View.scores v with
  | none => simp only [Cmd.revise, hv]
  | some z =>
    simp only [Cmd.revise, hv, View.scores_zset, Function.update_of_ne hm, Function.update_of_ne (Ne.symm hm)]
    rw [Function.update_comm hm]

theorem Cmd.Commutes.act {c d : Cmd} (h : c.Commutes d) (V : Contents) :
    d.act (c.act V) = c.act (d.act V) := by
  induction h with
  | idle h => rw [act_idle h, act_idle h]
  | same c => rfl
  | symm _ ih => exact ih.symm
  | count k f n fs h => exact act_comm_of_revise rfl rfl (revise_count h) V
  | scores k m m' x x' h => exact act_comm_of_revise rfl rfl (revise_scores h) V
  | increments k m m' n n' h => exact act_comm_of_revise rfl rfl (revise_increments h) V
  | @apart c d h =>
    cases hc : c.target with
    | none => rw [act_idle hc, act_idle hc]
    | some k =>
      cases hd : d.target with
      | none => rw [act_idle hd, act_idle hd]
      | some k' =>
        have hk : k ≠ k' := by
          rw [hc, hd] at h
          exact fun he => h (congrArg some he)
        rw [act_target hc, act_target hd, act_target hd, act_target hc, Function.update_of_ne hk,
          Function.update_of_ne hk.symm, Function.update_comm hk]

end Commutes

section Runs

variable {cs ds : List (Time × Cmd)} {σ : Store}

theorem contents_applyAll (hadd : ∀ p ∈ cs, ∀ K, p.2.OnlyAdds p.1 K) (hv : ∀ p ∈ cs, p.2.Nonvoid) :
    (applyAll cs σ).contents = (cs.map Prod.snd).foldl (fun V c => c.act V) σ.contents := by
  induction cs generalizing σ with
  | nil => rfl
  | cons p cs ih =>
    rw [List.forall_mem_cons] at hadd hv
    rw [List.map_cons, List.foldl_cons, ← contents_apply hadd.1 hv.1]
    exact ih hadd.2 hv.2

/-- Commands that all commute leave the same contents in whatever order they run. -/
theorem foldl_act_perm {cs ds : List Cmd} (hp : cs.Perm ds) (h : ∀ c ∈ cs, ∀ d ∈ cs, c.Commutes d)
    (V : Contents) : cs.foldl (fun V c => c.act V) V = ds.foldl (fun V c => c.act V) V :=
  hp.foldl_eq' (fun c hc d hd V => (h c hc d hd).act V) V

/-- What a key holds is what the last command on it made of it. -/
theorem foldl_act_last {before after : List Cmd} {c : Cmd} {K : Str} (hc : c.target = some K)
    (hafter : ∀ d ∈ after, d.target ≠ some K) (V : Contents) :
    (before ++ c :: after).foldl (fun V c => c.act V) V K =
      c.revise (before.foldl (fun V c => c.act V) V K) := by
  rw [List.foldl_append, List.foldl_cons]
  generalize before.foldl (fun V c => c.act V) V = W
  have hrest : ∀ W : Contents, after.foldl (fun V c => c.act V) W K = W K := by
    induction after with
    | nil => exact fun _ => rfl
    | cons d after ih =>
      intro W
      rw [List.forall_mem_cons] at hafter
      rw [List.foldl_cons, ih hafter.2]
      cases hd : d.target with
      | none => rw [act_idle hd]
      | some k =>
        rw [act_target hd, Function.update_of_ne]
        rintro rfl
        exact hafter.1 hd
  rw [hrest, act_target hc, Function.update_self]

end Runs

end Redis
