import Mathlib.Data.List.Basic

/-!
# Trees of tables in a flat memory

A multi-level table lives in a memory `T → I → E`: an address of type `T` names a table, an
index of type `I` selects one of its entries.  The function `child` says which table an entry
refers to; what it answers may depend on the depth of the table that holds the entry.

A path of indices leads from the root to at most one table (`descend`).  A memory is *unshared*
when no table is reached by two paths.  The two updates a page-table walker makes are to hang a
new childless table below an entry that referred to none (`AddsChild`), and to rewrite one entry
without changing what it refers to; the lemmas below say which tables the paths reach afterwards.
-/

namespace GnuOS.Lib

open List

variable {T I E : Type*}

section Descend

variable (child : ℕ → E → Option T)

/-- The table that the path leads to, starting at the table `t` of depth `d`. -/
def descend (mem : T → I → E) : ℕ → T → List I → Option T
  | _, t, [] => some t
  | d, t, i :: path => (child d (mem t i)).bind fun t' => descend mem (d + 1) t' path

/-- The table `t` is reached from `root`. -/
def IsTable (mem : T → I → E) (root t : T) : Prop :=
  ∃ path, descend child mem 0 root path = some t

/-- No table is reached by two different paths. -/
def Unshared (mem : T → I → E) (root : T) : Prop :=
  ∀ path path' t, descend child mem 0 root path = some t →
    descend child mem 0 root path' = some t → path = path'

end Descend

variable {child : ℕ → E → Option T} {mem mem' : T → I → E} {root t f : T} {i : I}

@[simp] theorem descend_nil (d : ℕ) : descend child mem d t [] = some t := rfl

theorem descend_cons (d : ℕ) (path : List I) :
    descend child mem d t (i :: path) =
      (child d (mem t i)).bind fun t' => descend child mem (d + 1) t' path := rfl

theorem descend_append (d : ℕ) (path path' : List I) :
    descend child mem d t (path ++ path') =
      (descend child mem d t path).bind fun t' =>
        descend child mem (d + path.length) t' path' := by
  induction path generalizing d t with
  | nil => simp
  | cons j path ih =>
    have hd : d + 1 + path.length = d + (path.length + 1) := by omega
    simp only [cons_append, descend_cons, ih, Option.bind_assoc, length_cons, hd]

/-- One more index: the entry at the end of a path. -/
theorem descend_snoc {path : List I} (h : descend child mem 0 root path = some t) :
    descend child mem 0 root (path ++ [i]) = child path.length (mem t i) := by
  simp only [descend_append, h, Option.bind_some, descend_cons, descend_nil, Nat.zero_add]
  cases child path.length (mem t i) <;> rfl

/-- A path that reaches a table ends with an entry that refers to it. -/
theorem descend_snoc_some {path : List I}
    (h : descend child mem 0 root (path ++ [i]) = some t) :
    ∃ r, descend child mem 0 root path = some r ∧ child path.length (mem r i) = some t := by
  cases hr : descend child mem 0 root path with
  | none =>
    rw [descend_append, hr, Option.bind_none] at h
    exact absurd h (by simp)
  | some r => exact ⟨r, rfl, (descend_snoc hr).symm.trans h⟩

/-- Two memories that agree on what the entries read along a path refer to lead that path to the
same table. -/
theorem descend_congr (d : ℕ) (path : List I)
    (h : ∀ ρ j rest, path = ρ ++ j :: rest → ∀ r, descend child mem d t ρ = some r →
      child (d + ρ.length) (mem' r j) = child (d + ρ.length) (mem r j)) :
    descend child mem' d t path = descend child mem d t path := by
  induction path generalizing d t with
  | nil => rfl
  | cons j path ih =>
    have hhead := h [] j path rfl t rfl
    simp only [length_nil, Nat.add_zero] at hhead
    simp only [descend_cons, hhead]
    cases hc : child d (mem t j) with
    | none => rfl
    | some t' =>
      simp only [Option.bind_some]
      apply ih
      intro ρ k rest hpath r hr
      have hstep := h (j :: ρ) k rest (by rw [hpath, cons_append]) r
        (by rw [descend_cons, hc, Option.bind_some, hr])
      have hd : d + 1 + ρ.length = d + (j :: ρ).length := by
        simp only [length_cons]; omega
      rw [hd, hstep]

/-- Rewriting one entry without changing what it refers to leaves every path where it led. -/
theorem descend_rewrite (hun : Unshared child mem root) {path : List I}
    (ht : descend child mem 0 root path = some t)
    (hframe : ∀ r j, r ≠ t ∨ j ≠ i → mem' r j = mem r j)
    (hsame : child path.length (mem' t i) = child path.length (mem t i)) (ρ : List I) :
    descend child mem' 0 root ρ = descend child mem 0 root ρ := by
  apply descend_congr
  intro σ j rest _ r hr
  by_cases hrt : r = t ∧ j = i
  · -- the rewritten entry is met only at the end of its own path
    rcases hrt with ⟨rfl, rfl⟩
    rw [hun σ path r hr ht, Nat.zero_add, hsame]
  · rw [hframe r j (by tauto)]

/-- The memory `mem'` hangs the new table `f` below entry `i` of the table `t`. -/
structure AddsChild (child : ℕ → E → Option T) (mem mem' : T → I → E) (root : T)
    (path : List I) (t : T) (i : I) (f : T) : Prop where
  parent : descend child mem 0 root path = some t
  vacant : child path.length (mem t i) = none
  fresh : ¬ IsTable child mem root f
  linked : child path.length (mem' t i) = some f
  childless : ∀ j, child (path.length + 1) (mem' f j) = none
  frame : ∀ r j, r ≠ f → r ≠ t ∨ j ≠ i → mem' r j = mem r j

namespace AddsChild

variable {path : List I}

section

variable (h : AddsChild child mem mem' root path t i f)

include h

/-- Entries of the old tables keep their values, except for the one that was linked. -/
theorem read_eq (hun : Unshared child mem root) {ρ : List I} {r : T} {j : I}
    (hr : descend child mem 0 root ρ = some r) (hne : ¬ (ρ = path ∧ j = i)) :
    mem' r j = mem r j := by
  apply h.frame
  · intro hrf
    exact h.fresh ⟨ρ, hrf ▸ hr⟩
  · by_contra hcon
    push Not at hcon
    rcases hcon with ⟨hrt, hji⟩
    rw [hrt] at hr
    exact hne ⟨hun ρ path t hr h.parent, hji⟩

/-- Paths that do not run through the linked entry lead where they led before. -/
theorem descend_eq (hun : Unshared child mem root) {ρ : List I} (hρ : ¬ path ++ [i] <+: ρ) :
    descend child mem' 0 root ρ = descend child mem 0 root ρ := by
  apply descend_congr
  intro σ j rest hsplit r hr
  rw [h.read_eq hun hr]
  intro hσ
  apply hρ
  rw [hsplit, hσ.1, hσ.2]
  exact ⟨rest, by simp⟩

theorem parent_after (hun : Unshared child mem root) : descend child mem' 0 root path = some t := by
  rw [h.descend_eq hun, h.parent]
  intro hp
  have hlen := hp.length_le
  simp only [length_append, length_singleton] at hlen
  omega

/-- The new table is the only one gained, and none is lost. -/
theorem descend_iff (hun : Unshared child mem root) (ρ : List I) (r : T) :
    descend child mem' 0 root ρ = some r ↔
      descend child mem 0 root ρ = some r ∨ (ρ = path ++ [i] ∧ r = f) := by
  by_cases hρ : path ++ [i] <+: ρ
  · rcases hρ with ⟨rest, rfl⟩
    have hold : descend child mem 0 root (path ++ [i] ++ rest) = none := by
      rw [descend_append, descend_snoc h.parent, h.vacant, Option.bind_none]
    rw [hold, descend_append, descend_snoc (h.parent_after hun), h.linked, Option.bind_some]
    cases rest with
    | nil => simp [eq_comm]
    | cons j rest =>
      -- the new table has no children, so no path goes on below it
      simp [descend_cons, h.childless]
  · rw [h.descend_eq hun hρ]
    constructor
    · intro hr
      exact .inl hr
    · intro hr
      rcases hr with hr | ⟨hr, _⟩
      · exact hr
      · exact absurd (hr ▸ prefix_refl _) hρ

theorem unshared (hun : Unshared child mem root) : Unshared child mem' root := by
  intro ρ ρ' r hρ hρ'
  rw [h.descend_iff hun] at hρ hρ'
  rcases hρ with hρ | ⟨hρ, hrf⟩ <;> rcases hρ' with hρ' | ⟨hρ', hrf'⟩
  · exact hun ρ ρ' r hρ hρ'
  · exact absurd ⟨ρ, hrf' ▸ hρ⟩ h.fresh
  · exact absurd ⟨ρ', hrf ▸ hρ'⟩ h.fresh
  · rw [hρ, hρ']

theorem isTable_iff (hun : Unshared child mem root) (r : T) :
    IsTable child mem' root r ↔ IsTable child mem root r ∨ r = f := by
  simp only [IsTable, h.descend_iff hun, exists_or, exists_eq_left]

end

end AddsChild

end GnuOS.Lib
