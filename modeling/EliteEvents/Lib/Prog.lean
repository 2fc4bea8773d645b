import Mathlib.Logic.Relation
import Mathlib.Tactic

/-! Programs that make calls to a shared state which others change in between. A program is a
tree of calls and answers; a call takes the state to a new one with some answer, and between two
calls the environment may take any number of steps of its own. -/

/-- A program over calls `c : C` answered in `R c`. -/
inductive Prog (C : Type) (R : C → Type) (α : Type)
  | pure (a : α)
  | call (c : C) (k : R c → Prog C R α)

namespace Prog

variable {C : Type} {R : C → Type} {α β : Type}

def bind : Prog C R α → (α → Prog C R β) → Prog C R β
  | .pure a, f => f a
  | .call c k, f => .call c fun r => (k r).bind f

instance : Monad (Prog C R) where
  pure := .pure
  bind := Prog.bind

/-- One call, with its answer as the result. -/
def perform (c : C) : Prog C R (R c) := .call c .pure

/-- A program run against a responder with a state of its own. -/
def interp {σ : Type} (respond : (c : C) → σ → R c × σ) : Prog C R α → σ → α × σ
  | .pure a, s => (a, s)
  | .call c k, s => (k (respond c s).1).interp respond (respond c s).2

theorem interp_bind {σ : Type} (respond : (c : C) → σ → R c × σ) (p : Prog C R α) (f : α → Prog C R β)
    (s : σ) : (p.bind f).interp respond s =
      (f (p.interp respond s).1).interp respond (p.interp respond s).2 := by
  induction p generalizing s with
  | pure a => rfl
  | call c k ih => exact ih _ _

section Wp

open Relation

variable {S : Type} (exec : (c : C) → S → R c → S → Prop) (env : S → S → Prop) (inv : S → Prop)

/-- From `s`, whatever the environment does and whatever the calls answer, every call keeps the
invariant and the result satisfies `Q`, also after further steps of the environment. -/
def wp : Prog C R α → (α → S → Prop) → S → Prop
  | .pure a, Q, s => ∀ s₁, ReflTransGen env s s₁ → inv s₁ → Q a s₁
  | .call c k, Q, s => ∀ s₁, ReflTransGen env s s₁ → inv s₁ → ∀ r s₂, exec c s₁ r s₂ →
      inv s₂ ∧ wp (k r) Q s₂

variable {exec env inv} {Q Q' : α → S → Prop} {s s' : S}

theorem wp_env {p : Prog C R α} (h : p.wp exec env inv Q s) (hs : ReflTransGen env s s') :
    p.wp exec env inv Q s' := by
  cases p with
  | pure a => exact fun s₁ h₁ hi => h s₁ (hs.trans h₁) hi
  | call c k => exact fun s₁ h₁ hi => h s₁ (hs.trans h₁) hi

/-- It is enough to prove it after the environment's steps, with the invariant at hand. -/
theorem wp_of_env {p : Prog C R α}
    (h : ∀ s₁, ReflTransGen env s s₁ → inv s₁ → p.wp exec env inv Q s₁) :
    p.wp exec env inv Q s := by
  cases p with
  | pure a => exact fun s₁ h₁ hi => h s₁ h₁ hi s₁ .refl hi
  | call c k => exact fun s₁ h₁ hi => h s₁ h₁ hi s₁ .refl hi

theorem wp_mono {p : Prog C R α} (hQ : ∀ a s, inv s → Q a s → Q' a s)
    (h : p.wp exec env inv Q s) : p.wp exec env inv Q' s := by
  induction p generalizing s with
  | pure a => exact fun s₁ h₁ hi => hQ a s₁ hi (h s₁ h₁ hi)
  | call c k ih =>
    intro s₁ h₁ hi r s₂ he
    obtain ⟨hi₂, hk⟩ := h s₁ h₁ hi r s₂ he
    exact ⟨hi₂, ih r hk⟩

/-- The postcondition also holds after further steps of the environment. -/
theorem wp_after {p : Prog C R α} (h : p.wp exec env inv Q s) :
    p.wp exec env inv (fun a s => ∀ s', ReflTransGen env s s' → inv s' → Q a s') s := by
  induction p generalizing s with
  | pure a => exact fun s₁ h₁ _ s₂ h₂ hi₂ => h s₂ (h₁.trans h₂) hi₂
  | call c k ih =>
    intro s₁ h₁ hi r s₂ he
    obtain ⟨hi₂, hk⟩ := h s₁ h₁ hi r s₂ he
    exact ⟨hi₂, ih r hk⟩

theorem wp_bind {p : Prog C R α} {f : α → Prog C R β} {Q : β → S → Prop}
    (h : p.wp exec env inv (fun a s => (f a).wp exec env inv Q s) s) :
    (p.bind f).wp exec env inv Q s := by
  induction p generalizing s with
  | pure a => exact wp_of_env h
  | call c k ih =>
    intro s₁ h₁ hi r s₂ he
    obtain ⟨hi₂, hk⟩ := h s₁ h₁ hi r s₂ he
    exact ⟨hi₂, ih r hk⟩

/-- A fact that the environment cannot break. -/
def Stable (env : S → S → Prop) (inv A : S → Prop) : Prop := ∀ s s', inv s → A s → env s s' → A s'

theorem Stable.star {A : S → Prop} (hA : Stable env inv A)
    (henv : ∀ s s', inv s → env s s' → inv s') (hi : inv s) (ha : A s)
    (hs : ReflTransGen env s s') : A s' := by
  have h : inv s' ∧ A s' := by
    induction hs with
    | refl => exact ⟨hi, ha⟩
    | tail _ hstep ih => exact ⟨henv _ _ ih.1 hstep, hA _ _ ih.1 ih.2 hstep⟩
  exact h.2

end Wp

/-! A discipline on the calls of a program, whatever the state: every call satisfies `P`, as long
as the answers so far were ones `T` allows. -/

section Obeys

variable (P : C → Prop) (T : (c : C) → R c → Prop)

def Obeys : Prog C R α → (α → Prop) → Prop
  | .pure a, Q => Q a
  | .call c k, Q => P c ∧ ∀ r, T c r → Obeys (k r) Q

variable {P T} {p : Prog C R α} {Q Q' : α → Prop}

theorem Obeys.weaken {P' : C → Prop} (h : p.Obeys P T Q) (hP : ∀ c, P c → P' c)
    (hQ : ∀ a, Q a → Q' a) : p.Obeys P' T Q' := by
  induction p with
  | pure a => exact hQ a h
  | call c k ih => exact ⟨hP c h.1, fun r hr => ih r (h.2 r hr)⟩

theorem Obeys.bind {f : α → Prog C R β} {Q' : β → Prop} (h : p.Obeys P T Q)
    (hf : ∀ a, Q a → (f a).Obeys P T Q') : (p.bind f).Obeys P T Q' := by
  induction p with
  | pure a => exact hf a h
  | call c k ih => exact ⟨h.1, fun r hr => ih r (h.2 r hr)⟩

end Obeys

/-! The same for programs that may end in an error; the result is described when it is none. -/

section ObeysOk

variable {ε : Type} (P : C → Prop) (T : (c : C) → R c → Prop)

def ObeysOk (p : ExceptT ε (Prog C R) α) (Q : α → Prop) : Prop :=
  Obeys P T (α := Except ε α) p fun r => ∀ a, r = .ok a → Q a

variable {P T} {p : ExceptT ε (Prog C R) α} {Q : α → Prop}

theorem obeysOk_pure {a : α} (h : Q a) : ObeysOk P T (Pure.pure a : ExceptT ε (Prog C R) α) Q := by
  rintro a' ⟨⟩
  exact h

theorem obeysOk_throw (e : ε) : ObeysOk P T (throw e : ExceptT ε (Prog C R) α) Q := by
  rintro a' ⟨⟩

theorem ObeysOk.weaken {P' : C → Prop} {Q' : α → Prop} (h : ObeysOk P T p Q) (hP : ∀ c, P c → P' c)
    (hQ : ∀ a, Q a → Q' a) : ObeysOk P' T p Q' :=
  Obeys.weaken h hP fun _ hr a ha => hQ a (hr a ha)

theorem ObeysOk.bind {f : α → ExceptT ε (Prog C R) β} {Q' : β → Prop} (h : ObeysOk P T p Q)
    (hf : ∀ a, Q a → ObeysOk P T (f a) Q') : ObeysOk P T (p >>= f) Q' := by
  refine Obeys.bind h fun r hr => ?_
  cases r with
  | error e => rintro a ⟨⟩
  | ok a => exact hf a (hr a rfl)

theorem ObeysOk.tryCatch {handler : ε → ExceptT ε (Prog C R) α} (h : ObeysOk P T p Q)
    (hc : ∀ e, ObeysOk P T (handler e) Q) : ObeysOk P T (tryCatch p handler) Q := by
  refine Obeys.bind h fun r hr => ?_
  cases r with
  | error e => exact hc e
  | ok a => exact hr

theorem obeysOk_perform {c : C} (hc : P c) :
    ObeysOk P T (ExceptT.lift (perform c) : ExceptT ε (Prog C R) (R c)) (T c) := by
  refine ⟨hc, fun r hr => ?_⟩
  rintro a ⟨⟩
  exact hr

end ObeysOk

section ObeysWp

open Relation

variable {S : Type} {exec : (c : C) → S → R c → S → Prop} {env : S → S → Prop} {inv I : S → Prop}
  {P : C → Prop} {T : (c : C) → R c → Prop} {s s' : S}

theorem star_restrict (henv : ∀ s s', I s → env s s' → I s') (hi : I s) (h : ReflTransGen env s s') :
    I s' ∧ ReflTransGen (fun s s' => env s s' ∧ I s ∧ I s') s s' := by
  induction h with
  | refl => exact ⟨hi, .refl⟩
  | tail _ hstep ih =>
    have hi' := henv _ _ ih.1 hstep
    exact ⟨hi', ih.2.tail ⟨hstep, ih.1, hi'⟩⟩

/-- An invariant that disciplined calls keep may be assumed of every state, and the discipline of
every call, while another invariant is proved. -/
theorem wp_of_obeys {p : Prog C R α} {Q : α → Prop} {Q' : α → S → Prop}
    (hstep : ∀ c s r s', I s → P c → exec c s r s' → I s' ∧ T c r)
    (henv : ∀ s s', I s → env s s' → I s') (hp : p.Obeys P T Q) (hi : I s)
    (h : p.wp (fun c s r s' => exec c s r s' ∧ I s ∧ I s' ∧ P c ∧ T c r)
      (fun s s' => env s s' ∧ I s ∧ I s') inv Q' s) :
    p.wp exec env (fun s => I s ∧ inv s) (fun a s => Q a ∧ Q' a s) s := by
  induction p generalizing s with
  | pure a => exact fun s₁ h₁ hi₁ => ⟨hp, h s₁ (star_restrict henv hi h₁).2 hi₁.2⟩
  | call c k ih =>
    intro s₁ h₁ hi₁ r s₂ he
    obtain ⟨hi₂, hr⟩ := hstep c s₁ r s₂ hi₁.1 hp.1 he
    obtain ⟨hinv, hk⟩ :=
      h s₁ (star_restrict henv hi h₁).2 hi₁.2 r s₂ ⟨he, hi₁.1, hi₂, hp.1, hr⟩
    exact ⟨⟨hi₂, hinv⟩, ih r (hp.2 r hr) hi₂ hk⟩

end ObeysWp

/-! Programs that may end in an error: pre- and postconditions, the latter for the results that
are no errors. -/

section Triple

open Relation

variable {S ε : Type} (exec : (c : C) → S → R c → S → Prop) (env : S → S → Prop) (inv : S → Prop)

def Triple (F : S → Prop) (p : ExceptT ε (Prog C R) α) (G : α → S → Prop) : Prop :=
  ∀ s, inv s → F s → Prog.wp exec env inv (α := Except ε α) p (fun r s => ∀ a, r = .ok a → G a s) s

variable {exec env inv} {F F' : S → Prop} {G G' : α → S → Prop}

theorem Triple.conseq {p : ExceptT ε (Prog C R) α} (h : Triple exec env inv F p G)
    (hF : ∀ s, inv s → F' s → F s) (hG : ∀ a s, inv s → G a s → G' a s) :
    Triple exec env inv F' p G' := fun s hi hs =>
  wp_mono (fun _ s hi h a ha => hG a s hi (h a ha)) (h s hi (hF s hi hs))

theorem triple_pure (henv : ∀ s s', inv s → env s s' → inv s') (hF : Stable env inv F) (a : α)
    (h : ∀ s, inv s → F s → G a s) :
    Triple exec env inv F (Pure.pure a : ExceptT ε (Prog C R) α) G := by
  rintro s hi hs s₁ h₁ hi₁ a' ⟨⟩
  exact h s₁ hi₁ (hF.star henv hi hs h₁)

theorem triple_throw (e : ε) : Triple exec env inv F (throw e : ExceptT ε (Prog C R) α) G := by
  rintro s hi hs s₁ h₁ hi₁ a ⟨⟩

theorem Triple.bind {p : ExceptT ε (Prog C R) α} {f : α → ExceptT ε (Prog C R) β}
    {H : β → S → Prop} (h : Triple exec env inv F p G)
    (hf : ∀ a, Triple exec env inv (G a) (f a) H) : Triple exec env inv F (p >>= f) H := by
  intro s hi hs
  refine wp_bind (wp_mono ?_ (h s hi hs))
  rintro (e | a) s₁ hi₁ hG
  · rintro s₂ h₂ hi₂ b ⟨⟩
  · exact hf a s₁ hi₁ (hG a rfl)

/-- A call whose answer the program looks at. -/
theorem triple_perform (henv : ∀ s s', inv s → env s s' → inv s') (hF : Stable env inv F) {c : C}
    {G : R c → S → Prop} (hG : ∀ r, Stable env inv (G r))
    (h : ∀ s r s', inv s → F s → exec c s r s' → inv s' ∧ G r s') :
    Triple exec env inv F (ExceptT.lift (perform c) : ExceptT ε (Prog C R) (R c)) G := by
  intro s hi hs s₁ h₁ hi₁ r s₂ he
  obtain ⟨hi₂, hg⟩ := h s₁ r s₂ hi₁ (hF.star henv hi hs h₁) he
  refine ⟨hi₂, ?_⟩
  rintro s₃ h₃ hi₃ a ⟨⟩
  exact (hG r).star henv hi₂ hg h₃

/-- A disciplined program keeps a fact that disciplined calls keep. -/
theorem triple_of_obeys {P : C → Prop} {T : (c : C) → R c → Prop} {p : ExceptT ε (Prog C R) α}
    {Q : α → Prop} (henv : ∀ s s', inv s → env s s' → inv s') (hF : Stable env inv F)
    (hp : ObeysOk P T p Q)
    (h : ∀ c s r s', inv s → F s → P c → exec c s r s' → inv s' ∧ F s' ∧ T c r) :
    Triple exec env inv F p fun a s => Q a ∧ F s := by
  intro s hi hs
  unfold ObeysOk at hp
  change Prog C R (Except ε α) at p
  induction p generalizing s with
  | pure r => exact fun s₁ h₁ hi₁ a ha => ⟨hp a ha, hF.star henv hi hs h₁⟩
  | call c k ih =>
    intro s₁ h₁ hi₁ r s₂ he
    obtain ⟨hi₂, hs₂, hr⟩ := h c s₁ r s₂ hi₁ (hF.star henv hi hs h₁) hp.1 he
    exact ⟨hi₂, ih r s₂ hi₂ hs₂ (hp.2 r hr)⟩

/-- An error handler that ends in an error itself. -/
theorem Triple.tryCatch {p : ExceptT ε (Prog C R) α} {handler : ε → ExceptT ε (Prog C R) α}
    (h : Triple exec env inv F p G)
    (hc : ∀ e, Triple exec env inv (fun _ => True) (handler e) G) :
    Triple exec env inv F (tryCatch p handler) G := by
  intro s hi hs
  refine wp_bind (wp_mono ?_ (wp_after (h s hi hs)))
  rintro (e | a) s₁ hi₁ hG
  · exact hc e s₁ hi₁ trivial
  · exact fun s₂ h₂ hi₂ => hG s₂ h₂ hi₂

end Triple

end Prog
