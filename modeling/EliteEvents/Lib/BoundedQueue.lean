import Mathlib.Data.List.Basic
import Mathlib.Data.List.DropRight
import Mathlib.Tactic

/-! A queue of bounded length that drops its oldest item when it is full, with a writer that
never waits and a reader that takes items one at a time. What the reader is missing is what
was overtaken by a full queue of later items. -/

namespace BoundedQueue

open scoped List

variable {α : Type} {n : ℕ}

/-- A queue of at most `n` items, oldest first. -/
structure Queue (α : Type) (n : ℕ) where
  items : List α
  bound : items.length ≤ n

namespace Queue

def empty : Queue α n := ⟨[], Nat.zero_le n⟩

/-- Writing to a full queue drops the oldest item first. -/
def tryWrite [NeZero n] (q : Queue α n) (x : α) : Queue α n :=
  if h : q.items.length < n then ⟨q.items ++ [x], by simp; omega⟩
  else
    ⟨q.items.tail ++ [x], by
      have := q.bound
      have := Nat.pos_of_ne_zero (NeZero.ne n)
      simp; omega⟩

def tryRead (q : Queue α n) : Option (α × Queue α n) :=
  match q with
  | ⟨[], _⟩ => none
  | ⟨x :: items, h⟩ => some (x, ⟨items, by simp at h; omega⟩)

end Queue

/-- Dequeue while there are more than `n` items. -/
def trim (n : ℕ) (items : List α) : List α :=
  if items.length > n then trim n items.tail else items
termination_by items.length
decreasing_by
  rename_i h
  rw [List.length_tail]
  omega

/-- What happens to one queue. -/
inductive Op (α : Type)
  | write (x : α)
  | read
  deriving DecidableEq

/-- A queue with everything its reader has taken. -/
structure Client (α : Type) (n : ℕ) where
  queue : Queue α n
  received : List α

def Client.init : Client α n := ⟨.empty, []⟩

def Client.step [NeZero n] (s : Client α n) : Op α → Client α n
  | .write x => { s with queue := s.queue.tryWrite x }
  | .read =>
    match s.queue.tryRead with
    | none => s
    | some (x, q) => ⟨q, s.received ++ [x]⟩

def run [NeZero n] (ops : List (Op α)) : Client α n := ops.foldl Client.step .init

def written : List (Op α) → List α
  | [] => []
  | .write x :: ops => x :: written ops
  | .read :: ops => written ops

theorem written_append (a b : List (Op α)) : written (a ++ b) = written a ++ written b := by
  induction a with
  | nil => rfl
  | cons o a ih => cases o <;> simp [written, ih]

theorem run_concat [NeZero n] (ops : List (Op α)) (o : Op α) :
    (run (ops ++ [o]) : Client α n) = (run ops).step o := by
  simp [run, List.foldl_append]

theorem trim_eq_rtake (items : List α) : trim n items = items.rtake n := by
  induction items with
  | nil =>
    unfold trim
    simp
  | cons x items ih =>
    unfold trim
    split_ifs with h
    · rw [List.tail_cons, ih, List.rtake, List.rtake]
      rw [List.length_cons] at h ⊢
      rw [Nat.succ_sub (by omega), List.drop_succ_cons]
    · rw [List.rtake, Nat.sub_eq_zero_of_le (by omega), List.drop_zero]

/-- Keeping the last `n` as items come in is keeping the last `n` of them all. -/
theorem trim_concat (items : List α) (x : α) :
    trim n (items.rtake n ++ [x]) = (items ++ [x]).rtake n := by
  rw [trim_eq_rtake]
  simp only [List.rtake_eq_reverse_take_reverse, List.reverse_append, List.reverse_reverse,
    List.reverse_cons, List.reverse_nil, List.nil_append, List.singleton_append]
  cases n with
  | zero => rfl
  | succ n => rw [List.take_succ_cons, List.take_succ_cons, List.take_take, Nat.min_eq_left (by omega)]

theorem tryWrite_room [NeZero n] {q : Queue α n} (x : α) (h : q.items.length < n) :
    (q.tryWrite x).items = q.items ++ [x] := by
  rw [Queue.tryWrite, dif_pos h]

theorem tryWrite_full [NeZero n] {q : Queue α n} (x : α) (h : ¬ q.items.length < n) :
    (q.tryWrite x).items = q.items.tail ++ [x] := by
  rw [Queue.tryWrite, dif_neg h]

theorem step_read_nil [NeZero n] {s : Client α n} (h : s.queue.items = []) : s.step .read = s := by
  obtain ⟨⟨items, hb⟩, r⟩ := s
  cases h
  rfl

theorem step_read_cons [NeZero n] {s : Client α n} {x : α} {rest : List α}
    (h : s.queue.items = x :: rest) :
    (s.step .read).queue.items = rest ∧ (s.step .read).received = s.received ++ [x] := by
  obtain ⟨⟨items, hb⟩, r⟩ := s
  cases h
  exact ⟨rfl, rfl⟩

/-- Reading alone only moves items from the queue to the reader. -/
theorem foldl_step_of_unwritten [NeZero n] {ops : List (Op α)} (h : written ops = []) (s : Client α n) :
    (ops.foldl Client.step s).received ++ (ops.foldl Client.step s).queue.items = s.received ++ s.queue.items := by
  induction ops generalizing s with
  | nil => rfl
  | cons o ops ih =>
    cases o with
    | write x => cases h
    | read =>
      rw [List.foldl_cons, ih h]
      cases hq : s.queue.items with
      | nil => rw [step_read_nil hq, hq]
      | cons x rest =>
        obtain ⟨hi, hr⟩ := step_read_cons hq
        rw [hi, hr, List.append_assoc, List.singleton_append]

/-- What was read, and then what waits to be read, is what was written with some items left out. -/
theorem received_sublist [NeZero n] (ops : List (Op α)) :
    (run ops : Client α n).received ++ (run ops : Client α n).queue.items <+ written ops := by
  induction ops using List.reverseRecOn with
  | nil => exact List.Sublist.refl _
  | append_singleton ops o ih =>
    rw [run_concat, written_append]
    cases o with
    | write x =>
      by_cases h : (run ops : Client α n).queue.items.length < n
      · rw [Client.step, tryWrite_room x h, ← List.append_assoc]
        exact ih.append (List.Sublist.refl [x])
      · rw [Client.step, tryWrite_full x h, ← List.append_assoc]
        exact (((List.tail_sublist _).append_left _).trans ih).append (List.Sublist.refl [x])
    | read =>
      rw [written, written, List.append_nil]
      cases h : (run ops : Client α n).queue.items with
      | nil => rw [step_read_nil h]; exact ih
      | cons x rest =>
        obtain ⟨hq, hr⟩ := step_read_cons h
        rw [hq, hr, List.append_assoc, List.singleton_append, ← h]
        exact ih

/-- The queue holds the last items written. -/
theorem queue_suffix [NeZero n] (ops : List (Op α)) :
    (run ops : Client α n).queue.items <:+ written ops := by
  induction ops using List.reverseRecOn with
  | nil => exact List.suffix_refl _
  | append_singleton ops o ih =>
    rw [run_concat, written_append]
    cases o with
    | write x =>
      rw [written, written]
      by_cases h : (run ops : Client α n).queue.items.length < n
      · rw [Client.step, tryWrite_room x h]
        exact List.suffix_append_inj_of_length_eq rfl |>.mpr ⟨ih, rfl⟩
      · rw [Client.step, tryWrite_full x h]
        exact List.suffix_append_inj_of_length_eq rfl |>.mpr ⟨(List.tail_suffix _).trans ih, rfl⟩
    | read =>
      rw [written, written, List.append_nil]
      cases h : (run ops : Client α n).queue.items with
      | nil => rw [step_read_nil h]; exact ih
      | cons x rest =>
        rw [(step_read_cons h).1]
        rw [h] at ih
        exact (List.suffix_cons x rest).trans ih

/-- Where the items read stood among those written: `taken` are their positions, in the order
of the reads, all before the queue. A position passed over was overtaken by `n` later writes
before the reader came to it. -/
structure Taken (n : ℕ) [NeZero n] (ops : List (Op α)) (taken : List ℕ) : Prop where
  ascending : taken.Pairwise (· < ·)
  received : (run ops : Client α n).received = taken.filterMap fun i => (written ops)[i]?
  before : ∀ i ∈ taken, i + (run ops : Client α n).queue.items.length < (written ops).length
  overtaken : ∀ i, i + (run ops : Client α n).queue.items.length < (written ops).length → i ∉ taken →
    ∃ ops₁, ops₁ <+: ops ∧ i + n < (written ops₁).length ∧
      (run ops₁ : Client α n).received = (taken.filter (· < i)).filterMap fun j => (written ops)[j]?

private theorem filterMap_getElem_append {ps : List ℕ} {w : List α} (v : List α)
    (h : ∀ i ∈ ps, i < w.length) :
    (ps.filterMap fun i => (w ++ v)[i]?) = ps.filterMap fun i => w[i]? :=
  List.filterMap_congr fun i hi => List.getElem?_append_left (h i hi)

/-- Writing leaves the positions taken as they are; the item it drops, if any, is overtaken
at this moment. -/
theorem Taken.write [NeZero n] {ops : List (Op α)} {taken : List ℕ} (h : Taken n ops taken) (x : α) :
    Taken n (ops ++ [.write x]) taken := by
  have hin : ∀ i ∈ taken, i < (written ops).length := fun i hi => by have := h.before i hi; omega
  have hlen : (written (ops ++ [Op.write x])).length = (written ops).length + 1 := by
    simp [written_append, written]
  have hsub := (queue_suffix ops : (run ops : Client α n).queue.items <:+ _).length_le
  have hrec : (run (ops ++ [.write x]) : Client α n).received = (run ops : Client α n).received := by
    rw [run_concat, Client.step]
  have hnew : ∀ ps : List ℕ, (∀ i ∈ ps, i ∈ taken) →
      (ps.filterMap fun i => (written (ops ++ [.write x]))[i]?) =
        ps.filterMap fun i => (written ops)[i]? := by
    intro ps hps
    rw [written_append]
    exact filterMap_getElem_append _ fun i hi => hin i (hps i hi)
  by_cases hroom : (run ops : Client α n).queue.items.length < n
  · have hq : (run (ops ++ [.write x]) : Client α n).queue.items.length =
        (run ops : Client α n).queue.items.length + 1 := by
      rw [run_concat, Client.step, tryWrite_room x hroom, List.length_append, List.length_singleton]
    refine ⟨h.ascending, ?_, ?_, ?_⟩
    · rw [hrec, h.received, hnew taken fun _ hi => hi]
    · intro i hi
      have := h.before i hi
      omega
    · intro i hi hnot
      obtain ⟨ops₁, hpre, hover, hgot⟩ := h.overtaken i (by omega) hnot
      refine ⟨ops₁, hpre.trans (List.prefix_append _ _), hover, ?_⟩
      rw [hgot, hnew _ fun _ hj => List.mem_of_mem_filter hj]
  · have hfull : (run ops : Client α n).queue.items.length = n := by
      have := (run ops : Client α n).queue.bound
      omega
    have hpos := Nat.pos_of_ne_zero (NeZero.ne n)
    have hq : (run (ops ++ [.write x]) : Client α n).queue.items.length = n := by
      rw [run_concat, Client.step, tryWrite_full x hroom, List.length_append, List.length_singleton,
        List.length_tail]
      omega
    refine ⟨h.ascending, ?_, ?_, ?_⟩
    · rw [hrec, h.received, hnew taken fun _ hi => hi]
    · intro i hi
      have := h.before i hi
      omega
    · intro i hi hnot
      by_cases hold : i + n < (written ops).length
      · obtain ⟨ops₁, hpre, hover, hgot⟩ := h.overtaken i (by omega) hnot
        refine ⟨ops₁, hpre.trans (List.prefix_append _ _), hover, ?_⟩
        rw [hgot, hnew _ fun _ hj => List.mem_of_mem_filter hj]
      · -- the oldest item of the queue, dropped by this write
        refine ⟨_, List.prefix_refl _, by omega, ?_⟩
        have hall : taken.filter (· < i) = taken := by
          rw [List.filter_eq_self]
          intro j hj
          have := h.before j hj
          exact decide_eq_true (by omega)
        rw [hall, hrec, h.received, hnew taken fun _ hi => hi]

/-- Reading takes the first position of the queue. -/
theorem Taken.read [NeZero n] {ops : List (Op α)} {taken : List ℕ} (h : Taken n ops taken) :
    ∃ taken', Taken n (ops ++ [.read]) taken' := by
  have hw : written (ops ++ [Op.read]) = written ops := by simp [written_append, written]
  cases hitems : (run ops : Client α n).queue.items with
  | nil =>
    have hrun : (run (ops ++ [.read]) : Client α n) = run ops := by
      rw [run_concat, step_read_nil hitems]
    refine ⟨taken, h.ascending, by rw [hrun, hw, h.received], by rw [hrun, hw]; exact h.before, ?_⟩
    rw [hrun, hw]
    intro i hi hnot
    obtain ⟨ops₁, hpre, hrest⟩ := h.overtaken i hi hnot
    exact ⟨ops₁, hpre.trans (List.prefix_append _ _), hrest⟩
  | cons x rest =>
    obtain ⟨hq, hr⟩ := step_read_cons hitems
    rw [← run_concat] at hq hr
    have hsuf : x :: rest <:+ written ops := hitems ▸ queue_suffix ops
    have hlen := hsuf.length_le
    rw [List.length_cons] at hlen
    set start := (written ops).length - (rest.length + 1) with hstart
    have hbefore : ∀ i ∈ taken, i < start := by
      intro i hi
      have := h.before i hi
      rw [hitems, List.length_cons] at this
      omega
    have hx : (written ops)[start]? = some x := by
      rw [List.suffix_iff_eq_drop] at hsuf
      rw [← Nat.add_zero start, ← List.getElem?_drop, hstart, ← List.length_cons, ← hsuf]
      rfl
    refine ⟨taken ++ [start], ?_, ?_, ?_, ?_⟩
    · rw [List.pairwise_append]
      refine ⟨h.ascending, List.pairwise_singleton _ _, ?_⟩
      intro i hi j hj
      rw [List.mem_singleton.mp hj]
      exact hbefore i hi
    · rw [hr, hw, h.received, List.filterMap_append, List.filterMap_cons_some hx]
      rfl
    · intro i hi
      rw [hq, hw]
      rcases List.mem_append.mp hi with hi | hi
      · have := hbefore i hi
        omega
      · rw [List.mem_singleton.mp hi]
        omega
    · intro i hi hnot
      rw [hq, hw] at hi
      rw [List.mem_append, not_or, List.mem_singleton] at hnot
      obtain ⟨ops₁, hpre, hover, hgot⟩ :=
        h.overtaken i (by rw [hitems, List.length_cons]; omega) hnot.1
      refine ⟨ops₁, hpre.trans (List.prefix_append _ _), hover, ?_⟩
      have hlast : ([start].filter fun j => decide (j < i)) = [] := by
        rw [List.filter_cons_of_neg (by simp; omega), List.filter_nil]
      rw [hgot, hw, List.filter_append, hlast, List.append_nil]

theorem exists_taken [NeZero n] (ops : List (Op α)) : ∃ taken, Taken n ops taken := by
  induction ops using List.reverseRecOn with
  | nil => exact ⟨[], List.Pairwise.nil, rfl, by simp, by simp [written]⟩
  | append_singleton ops o ih =>
    obtain ⟨taken, h⟩ := ih
    cases o with
    | write x => exact ⟨taken, h.write x⟩
    | read => exact h.read

end BoundedQueue
