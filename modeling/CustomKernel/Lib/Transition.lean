import Mathlib.Logic.Function.Basic

/-! # Runs of a labelled transition system

A run is a finite sequence of labelled steps. An invariant is proved one step
at a time, and a simulation carries a whole run from one system to another
with the same labels, up to labels that the other one does not see. -/
namespace CustomKernel.Lib.Transition

variable {σ τ ε δ : Type}

inductive Run (step : σ → ε → σ → Prop) : σ → List ε → σ → Prop where
  | nil (s : σ) : Run step s [] s
  | cons {s s' s'' : σ} {e : ε} {es : List ε} :
      step s e s' → Run step s' es s'' → Run step s (e :: es) s''

/-- Where a value comes from after a step that changed one entry. -/
theorem eq_of_update {α β : Type} [DecidableEq α] {f : α → β} {a b : α} {x y : β}
    (h : Function.update f a x b = y) : b = a ∧ x = y ∨ b ≠ a ∧ f b = y := by
  rcases eq_or_ne b a with rfl | hne
  · exact .inl ⟨rfl, (Function.update_self ..).symm.trans h⟩
  · exact .inr ⟨hne, (Function.update_of_ne hne ..).symm.trans h⟩

/-- The steps that meet a condition on the state they start from. -/
def Meeting (cond : σ → ε → Prop) (step : σ → ε → σ → Prop) (s : σ) (e : ε) (s' : σ) : Prop :=
  cond s e ∧ step s e s'

section
variable {step : σ → ε → σ → Prop} {s s' s'' : σ} {es es' : List ε}

theorem Run.append (h : Run step s es s') (h' : Run step s' es' s'') :
    Run step s (es ++ es') s'' := by
  induction h with
  | nil => exact h'
  | cons h1 _ ih => exact .cons h1 (ih h')

theorem Run.of_append (h : Run step s (es ++ es') s'') :
    ∃ s', Run step s es s' ∧ Run step s' es' s'' := by
  induction es generalizing s with
  | nil => exact ⟨s, .nil s, h⟩
  | cons e es ih =>
    cases h with
    | cons h1 h2 =>
      obtain ⟨s', h3, h4⟩ := ih h2
      exact ⟨s', .cons h1 h3, h4⟩

/-- What every step preserves, a whole run preserves. -/
theorem Run.invariant {I : σ → Prop} (hstep : ∀ s e s', I s → step s e s' → I s')
    (h : Run step s es s') (hs : I s) : I s' := by
  induction h with
  | nil => exact hs
  | cons h1 _ ih => exact ih (hstep _ _ _ hs h1)

/-- Each step of the concrete system whose label is seen from outside is matched
by one of the abstract system, and the others by none. -/
theorem Run.stuttering (astep : τ → δ → τ → Prop) (seen : ε → Option δ) {R : σ → τ → Prop}
    (hvis : ∀ s t e s' d, R s t → step s e s' → seen e = some d → ∃ t', astep t d t' ∧ R s' t')
    (hinv : ∀ s t e s', R s t → step s e s' → seen e = none → R s' t)
    (h : Run step s es s') {t : τ} (hs : R s t) :
    ∃ t', Run astep t (es.filterMap seen) t' ∧ R s' t' := by
  induction h generalizing t with
  | nil => exact ⟨t, .nil t, hs⟩
  | @cons _ _ _ e _ h1 _ ih =>
    cases he : seen e with
    | none =>
      obtain ⟨t', hrun, hr⟩ := ih (hinv _ _ _ _ hs h1 he)
      exact ⟨t', by rw [List.filterMap_cons_none he]; exact hrun, hr⟩
    | some d =>
      obtain ⟨t1, ha, hr⟩ := hvis _ _ _ _ _ hs h1 he
      obtain ⟨t', hrun, hr'⟩ := ih hr
      exact ⟨t', by rw [List.filterMap_cons_some he]; exact .cons ha hrun, hr'⟩

/-- Each step of the concrete system is matched by one of the abstract system
with the same label. -/
theorem Run.simulation {astep : τ → ε → τ → Prop} {R : σ → τ → Prop}
    (hstep : ∀ s t e s', R s t → step s e s' → ∃ t', astep t e t' ∧ R s' t')
    (h : Run step s es s') {t : τ} (hs : R s t) :
    ∃ t', Run astep t es t' ∧ R s' t' := by
  have hsim := h.stuttering astep some
    (fun s t e s' d hr h1 he => by cases he; exact hstep s t e s' hr h1)
    (fun _ _ _ _ _ _ he => by cases he) hs
  rwa [List.filterMap_some] at hsim

end

/-! ## Steps that are computed -/

/-- The state after some events, if each of them can happen when its turn comes. -/
def execAll (exec : σ → ε → Option σ) : σ → List ε → Option σ
  | s, [] => some s
  | s, e :: es => (exec s e).bind fun s' => execAll exec s' es

theorem Run.of_execAll {exec : σ → ε → Option σ} {step : σ → ε → σ → Prop}
    (hstep : ∀ s e s', exec s e = some s' → step s e s') {s s' : σ} {es : List ε}
    (h : execAll exec s es = some s') : Run step s es s' := by
  induction es generalizing s with
  | nil =>
    cases h
    exact .nil _
  | cons e es ih =>
    obtain ⟨s1, hexec, hrest⟩ := Option.bind_eq_some_iff.mp h
    exact .cons (hstep _ _ _ hexec) (ih hrest)

/-- An event that does not meet the condition cannot happen. -/
def execMeeting (cond : σ → ε → Prop) [∀ s e, Decidable (cond s e)] (exec : σ → ε → Option σ) (s : σ)
    (e : ε) : Option σ :=
  if cond s e then exec s e else none

theorem of_execMeeting {cond : σ → ε → Prop} [∀ s e, Decidable (cond s e)]
    {exec : σ → ε → Option σ} (s : σ) (e : ε) (s' : σ) (h : execMeeting cond exec s e = some s') :
    Meeting cond (fun s e s' => exec s e = some s') s e s' :=
  Option.ite_none_right_eq_some.mp h

end CustomKernel.Lib.Transition
