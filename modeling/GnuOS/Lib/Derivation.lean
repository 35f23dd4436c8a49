import Mathlib.Data.List.Chain

/-!
# Derivation chains

A list that starts at a root and ends at an element, every element but the first derived from the
one before it.
-/

namespace GnuOS.Lib

open List

variable {α : Type*} {R R' : α → α → Prop} {root a b : α} {chain : List α}

structure DerivesTo (R : α → α → Prop) (root a : α) (chain : List α) : Prop where
  head : chain.head? = some root
  last : chain.getLast? = some a
  links : chain.IsChain R

namespace DerivesTo

theorem root_only (R : α → α → Prop) (a : α) : DerivesTo R a a [a] :=
  ⟨rfl, rfl, isChain_singleton a⟩

/-- A derivation goes on at its end. -/
theorem snoc (h : DerivesTo R root a chain) (hab : R a b) :
    DerivesTo R root b (chain ++ [b]) where
  head := by rw [head?_append, h.head, Option.some_or]
  last := by rw [getLast?_append, getLast?_singleton, Option.some_or]
  links := by
    apply h.links.append (isChain_singleton b)
    intro x hx z hz
    rw [h.last, Option.mem_some_iff] at hx
    rw [head?_singleton, Option.mem_some_iff] at hz
    rw [← hx, ← hz]
    exact hab

theorem imp (h : DerivesTo R root a chain) (himp : ∀ a b, R a b → R' a b) :
    DerivesTo R' root a chain :=
  ⟨h.head, h.last, h.links.imp fun a b => himp a b⟩

end DerivesTo

end GnuOS.Lib
