import Mathlib.Data.List.Basic

/-!
# Runs of a partial step function

A system that takes one labelled step after another, where a step may be refused: the run over a
list of labels is `List.foldlM` in `Option`.  What each step preserves holds at the end of every
run.
-/

namespace GnuOS.Lib

open List

variable {S L : Type*} {step : S → L → Option S} {s s' : S} {ops : List L}

theorem run_cons {op : L} :
    (op :: ops).foldlM step s = some s' ↔
      ∃ s₁, step s op = some s₁ ∧ ops.foldlM step s₁ = some s' := by
  rw [foldlM_cons, Option.bind_eq_bind, Option.bind_eq_some_iff]

/-- Every step of a run meets a condition on the label and the state in which it is taken. -/
def EachStep (step : S → L → Option S) (C : S → L → Prop) (s : S) (ops : List L) : Prop :=
  ∀ pre op post s₁, ops = pre ++ op :: post → pre.foldlM step s = some s₁ → C s₁ op

variable {C : S → L → Prop}

theorem EachStep.nil : EachStep step C s [] := by
  intro pre op post s₁ hops
  exact absurd hops (by simp)

theorem EachStep.cons {op : L} (hop : C s op)
    (hrest : ∀ s₁, step s op = some s₁ → EachStep step C s₁ ops) :
    EachStep step C s (op :: ops) := by
  intro pre op' post s₂ hops hpre
  cases pre with
  | nil =>
    rw [nil_append, cons.injEq] at hops
    rw [foldlM_nil, Option.pure_def, Option.some.injEq] at hpre
    rw [← hpre, ← hops.1]
    exact hop
  | cons op₁ pre =>
    rw [cons_append, cons.injEq] at hops
    rcases run_cons.mp hpre with ⟨s₁, hs₁, hpre⟩
    rw [← hops.1] at hs₁
    exact hrest s₁ hs₁ pre op' post s₂ hops.2 hpre

theorem EachStep.head {op : L} (h : EachStep step C s (op :: ops)) : C s op :=
  h [] op ops s rfl rfl

theorem EachStep.tail {op : L} {s₁ : S} (h : EachStep step C s (op :: ops))
    (hs₁ : step s op = some s₁) : EachStep step C s₁ ops := by
  intro pre op' post s₂ hops hpre
  apply h (op :: pre) op' post s₂
  · rw [hops, cons_append]
  · exact run_cons.mpr ⟨s₁, hs₁, hpre⟩

theorem run_append {pre post : List L} :
    (pre ++ post).foldlM step s = some s' ↔
      ∃ s₁, pre.foldlM step s = some s₁ ∧ post.foldlM step s₁ = some s' := by
  rw [foldlM_append, Option.bind_eq_bind, Option.bind_eq_some_iff]

theorem EachStep.append_left {pre post : List L} (h : EachStep step C s (pre ++ post)) :
    EachStep step C s pre := by
  intro pre' op post' s₁ hops hpre'
  apply h pre' op (post' ++ post) s₁ _ hpre'
  rw [hops, append_assoc, cons_append]

theorem EachStep.append_right {pre post : List L} {s₁ : S} (h : EachStep step C s (pre ++ post))
    (hpre : pre.foldlM step s = some s₁) :
    EachStep step C s₁ post := by
  intro pre' op post' s₂ hops hpre'
  apply h (pre ++ pre') op post' s₂
  · rw [hops, append_assoc]
  · exact run_append.mpr ⟨s₁, hpre, hpre'⟩

theorem EachStep.and {D : S → L → Prop} (hC : EachStep step C s ops) (hD : EachStep step D s ops) :
    EachStep step (fun s op => C s op ∧ D s op) s ops :=
  fun pre op post s₁ hops hpre => ⟨hC pre op post s₁ hops hpre, hD pre op post s₁ hops hpre⟩

/-- A condition on steps can be checked along the run. -/
instance EachStep.decidable {C : S → L → Prop} [∀ s op, Decidable (C s op)] :
    ∀ s ops, Decidable (EachStep step C s ops)
  | _, [] => isTrue .nil
  | s, op :: ops =>
    match hs : step s op with
    | none => decidable_of_iff (C s op)
        ⟨fun hop => .cons hop fun s₁ hs₁ => by rw [hs] at hs₁; exact absurd hs₁ (by simp),
          EachStep.head⟩
    | some s₁ =>
      have : Decidable (EachStep step C s₁ ops) := EachStep.decidable s₁ ops
      decidable_of_iff (C s op ∧ EachStep step C s₁ ops)
        ⟨fun h => .cons h.1 fun s₂ hs₂ => by rw [hs, Option.some.injEq] at hs₂; exact hs₂ ▸ h.2,
          fun h => ⟨h.head, h.tail hs⟩⟩

variable {P : S → Prop}

/-- The invariant rule for runs whose steps meet a condition: what holds at the start and is
preserved by each step that meets the condition holds at the end. -/
theorem run_invariant_of (hstep : ∀ s op s', P s → C s op → step s op = some s' → P s') (hs : P s)
    (hC : EachStep step C s ops) (hrun : ops.foldlM step s = some s') : P s' := by
  induction ops generalizing s with
  | nil =>
    rw [foldlM_nil, Option.pure_def, Option.some.injEq] at hrun
    rw [← hrun]
    exact hs
  | cons op ops ih =>
    rcases run_cons.mp hrun with ⟨s₁, hs₁, hrest⟩
    exact ih (hstep s op s₁ hs hC.head hs₁) (hC.tail hs₁) hrest

/-- The invariant rule for all runs. -/
theorem run_invariant (hstep : ∀ s op s', P s → step s op = some s' → P s') (hs : P s)
    (hrun : ops.foldlM step s = some s') : P s' :=
  run_invariant_of (C := fun _ _ => True) (fun s op s' h _ => hstep s op s' h) hs
    (fun _ _ _ _ _ _ => trivial) hrun

/-- All the states of a run, the first and the last one included, have a property. -/
def Throughout (step : S → L → Option S) (P : S → Prop) (s : S) (ops : List L) : Prop :=
  ∀ pre post s₁, ops = pre ++ post → pre.foldlM step s = some s₁ → P s₁

theorem Throughout.last (h : Throughout step P s ops) (hrun : ops.foldlM step s = some s') : P s' :=
  h ops [] s' (by simp) hrun

theorem Throughout.of_eachStep (hsteps : EachStep step (fun s _ => P s) s ops)
    (hrun : ops.foldlM step s = some s') (hlast : P s') : Throughout step P s ops := by
  intro pre post s₁ hops hpre
  cases post with
  | nil =>
    rw [append_nil] at hops
    rw [← hops, hrun, Option.some.injEq] at hpre
    exact hpre ▸ hlast
  | cons op post => exact hsteps pre op post s₁ hops hpre

theorem Throughout.eachStep (h : Throughout step P s ops) :
    EachStep step (fun s op => P s ∧ ∀ s', step s op = some s' → P s') s ops := by
  intro pre op post s₁ hops hpre
  refine ⟨h pre (op :: post) s₁ hops hpre, ?_⟩
  intro s₂ hs₂
  apply h (pre ++ [op]) post s₂
  · rw [hops, append_assoc, singleton_append]
  · exact run_append.mpr ⟨s₁, hpre, run_cons.mpr ⟨s₂, hs₂, rfl⟩⟩

end GnuOS.Lib
