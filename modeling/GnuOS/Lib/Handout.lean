import GnuOS.Lib.Pool
import Mathlib.Data.List.Nodup

/-!
# Items handed out to calls

Items are handed out in order, each to one call of a pool, which runs it and then finishes it.  The
number of an item is its position in this order.  Every number has one place: the item is not yet
handed out, held by one call, or finished.  The steps of a call move at most one number, so no item
is lost, given to two calls or run twice.
-/

namespace GnuOS.Lib

open List

open Function

inductive ItemPlace
  | pending
  | held (k : ℕ)
  | finished
  deriving DecidableEq

variable {α β : Type*}

/-- The calls and the logs agree with `place`: `held` reads the number and the item off a call that
holds one, and `runs` the number off a call that has run the one it holds. -/
structure Handout (held : α → Option (ℕ × β)) (runs : α → Option ℕ) (calls : List α)
    (outs : List β) (ran : List (ℕ × β)) (finished : List ℕ) (place : ℕ → ItemPlace) : Prop where
  place_pending : ∀ n, place n = .pending ↔ outs.length ≤ n
  place_held : ∀ n k, place n = .held k ↔ ∃ b, Shows held calls k (n, b)
  place_finished : ∀ n, place n = .finished ↔ n ∈ finished
  own : ∀ k n b, Shows held calls k (n, b) → outs[n]? = some b
  mem_ran : ∀ n, n ∈ ran.map Prod.fst ↔ place n = .finished ∨ ∃ k, Shows runs calls k n
  ranOwn : ∀ n b, (n, b) ∈ ran → outs[n]? = some b
  ranNodup : (ran.map Prod.fst).Nodup
  finishedNodup : finished.Nodup
  count : outs.length = finished.length + calls.countP fun c => (held c).isSome

namespace Handout

variable {held : α → Option (ℕ × β)} {runs : α → Option ℕ} {calls calls' : List α} {outs : List β}
  {ran : List (ℕ × β)} {finished : List ℕ} {place : ℕ → ItemPlace} {k n : ℕ} {b : β} {c e : α}

theorem empty : Handout held runs [] [] [] [] fun _ => .pending where
  place_pending := by simp
  place_held := by simp [Shows]
  place_finished := by simp
  own := by simp [Shows]
  mem_ran := by simp [Shows]
  ranOwn := by simp
  ranNodup := nodup_nil
  finishedNodup := nodup_nil
  count := rfl

section

variable (h : Handout held runs calls outs ran finished place)

include h

/-- A step after which the same is read off the calls. -/
theorem congr (hheld : ∀ k b, Shows held calls' k b ↔ Shows held calls k b)
    (hruns : ∀ k b, Shows runs calls' k b ↔ Shows runs calls k b)
    (hcount : (calls'.countP fun c => (held c).isSome) = calls.countP fun c => (held c).isSome) :
    Handout held runs calls' outs ran finished place where
  place_pending := h.place_pending
  place_held n k := by
    simp only [hheld]
    exact h.place_held n k
  place_finished := h.place_finished
  own k n b hk := h.own k n b ((hheld k _).mp hk)
  mem_ran n := by
    simp only [hruns]
    exact h.mem_ran n
  ranOwn := h.ranOwn
  ranNodup := h.ranNodup
  finishedNodup := h.finishedNodup
  count := by
    rw [hcount]
    exact h.count

/-- A call begins. -/
theorem begin (hheld : held c = none) (hruns : runs c = none) :
    Handout held runs (calls ++ [c]) outs ran finished place := by
  refine h.congr (fun k b => shows_concat_none hheld) (fun k b => shows_concat_none hruns) ?_
  rw [countP_concat, hheld]
  rfl

/-- A step of a call that leaves its item where it is. -/
theorem move (hk : calls[k]? = some c) (hheld : held e = held c) (hruns : runs e = runs c) :
    Handout held runs (calls.set k e) outs ran finished place := by
  refine h.congr (fun k b => shows_set_same hk hheld) (fun k b => shows_set_same hk hruns) ?_
  apply countP_set_same hk
  rw [hheld]

/-- No call holds an item that has not been handed out. -/
theorem not_held :
    ¬ Shows held calls k (outs.length, b) := by
  intro hshows
  have hn := h.own k _ b hshows
  simp at hn

/-- Call `k` takes the next item. -/
theorem take (hk : calls[k]? = some c) (hc : held c = none) (hruns : runs e = runs c)
    (he : held e = some (outs.length, b)) :
    Handout held runs (calls.set k e) (outs ++ [b]) ran finished
      (update place outs.length (.held k)) where
  place_pending n := by
    rw [length_append, length_singleton]
    by_cases hn : n = outs.length
    · subst hn
      simp
    · rw [update_of_ne hn, h.place_pending]
      omega
  place_held n j := by
    simp only [shows_set_enter (f := held) hk hc, he, Option.some.injEq, Prod.mk.injEq]
    by_cases hn : n = outs.length
    · subst hn
      simp [h.not_held, eq_comm]
    · rw [update_of_ne hn, h.place_held]
      simp [Ne.symm hn]
  place_finished n := by
    by_cases hn : n = outs.length
    · subst hn
      rw [← h.place_finished, (h.place_pending _).mpr (Nat.le_refl _)]
      simp
    · rw [update_of_ne hn, h.place_finished]
  own j n a hj := by
    rcases (shows_set_enter hk hc).mp hj with ⟨_, hheld⟩ | hj
    · rw [he, Option.some.injEq, Prod.mk.injEq] at hheld
      rw [← hheld.1, ← hheld.2]
      simp
    · exact getElem?_concat_iff.mpr (.inl (h.own j n a hj))
  mem_ran n := by
    simp only [shows_set_same hk hruns]
    rw [h.mem_ran n]
    by_cases hn : n = outs.length
    · subst hn
      rw [(h.place_pending _).mpr (Nat.le_refl _)]
      simp
    · rw [update_of_ne hn]
  ranOwn n a hn := getElem?_concat_iff.mpr (.inl (h.ranOwn n a hn))
  ranNodup := h.ranNodup
  finishedNodup := h.finishedNodup
  count := by
    have hcount := countP_set_add (e := e) (fun c => (held c).isSome) hk
    have hold := h.count
    simp only [hc, he, Option.isSome_none, Option.isSome_some, Bool.false_eq_true, ↓reduceIte]
      at hcount
    rw [length_append, length_singleton]
    omega

theorem place_of_held (hk : Shows held calls k (n, b)) : place n = .held k :=
  (h.place_held n k).mpr ⟨b, hk⟩

/-- Two calls do not hold the same item. -/
theorem holder_unique {j : ℕ} {a : β} (hj : Shows held calls j (n, a))
    (hk : Shows held calls k (n, b)) : j = k := by
  have hplace := h.place_of_held hj
  rw [h.place_of_held hk, ItemPlace.held.injEq] at hplace
  exact hplace.symm

/-- An item that its call has not run was not run: it would be finished, or held by another. -/
theorem not_ran (hsub : ∀ c n, runs c = some n → ∃ b, held c = some (n, b))
    (hk : calls[k]? = some c) (hc : held c = some (n, b)) (hruns : runs c = none) :
    n ∉ ran.map Prod.fst := by
  intro hn
  have hshows : Shows held calls k (n, b) := (shows_iff hk).mpr hc
  rw [h.mem_ran, h.place_of_held hshows] at hn
  rcases hn with hn | ⟨j, hj⟩
  · exact absurd hn (by simp)
  · rcases hj.exists with ⟨d, hd, hruns_d⟩
    rcases hsub d n hruns_d with ⟨a, ha⟩
    rw [h.holder_unique ((shows_iff hd).mpr ha) hshows, shows_iff hk, hruns] at hj
    exact absurd hj (by simp)

/-- Call `k` runs the item it holds. -/
theorem run (hsub : ∀ c n, runs c = some n → ∃ b, held c = some (n, b)) (hk : calls[k]? = some c)
    (hc : held c = some (n, b)) (hruns : runs c = none) (he : held e = held c)
    (hruns' : runs e = some n) :
    Handout held runs (calls.set k e) outs (ran ++ [(n, b)]) finished place where
  place_pending := h.place_pending
  place_held m j := by
    simp only [shows_set_same hk he]
    exact h.place_held m j
  place_finished := h.place_finished
  own j m a hj := h.own j m a ((shows_set_same hk he).mp hj)
  mem_ran m := by
    simp only [shows_set_enter (f := runs) hk hruns, hruns', Option.some.injEq,
      map_append, map_cons, map_nil, mem_append, mem_singleton]
    rw [h.mem_ran m]
    simp only [exists_or, exists_eq_left]
    tauto
  ranOwn m a hm := by
    rcases mem_append.mp hm with hm | hm
    · exact h.ranOwn m a hm
    · simp only [mem_singleton, Prod.mk.injEq] at hm
      rw [hm.1, hm.2]
      exact h.own k n b ((shows_iff hk).mpr hc)
  ranNodup := by
    rw [map_append, map_singleton, ← concat_eq_append]
    exact List.Nodup.concat (h.not_ran hsub hk hc hruns) h.ranNodup
  finishedNodup := h.finishedNodup
  count := by
    rw [countP_set_same hk (by rw [he])]
    exact h.count

/-- Call `k` finishes the item it has run. -/
theorem finish (hk : calls[k]? = some c) (hc : held c = some (n, b)) (hruns : runs c = some n)
    (he : held e = none) (hruns' : runs e = none) :
    Handout held runs (calls.set k e) outs ran (finished ++ [n])
      (update place n .finished) := by
  have hshows : Shows held calls k (n, b) := (shows_iff hk).mpr hc
  have hplace := h.place_of_held hshows
  have hlt : n < outs.length := by
    have hpending := (h.place_pending n).not
    rw [hplace] at hpending
    simpa using hpending
  have hnot : n ∉ finished := by
    rw [← h.place_finished, hplace]
    simp
  exact {
    place_pending := by
      intro m
      by_cases hm : m = n
      · subst hm
        simpa using hlt
      · rw [update_of_ne hm, h.place_pending]
    place_held := by
      intro m j
      simp only [shows_set_leave (f := held) hk he]
      by_cases hm : m = n
      · subst hm
        rw [update_self]
        simp only [reduceCtorEq, false_iff, not_exists, not_and]
        intro a hj hshows'
        exact hj (h.holder_unique hshows' hshows)
      · rw [update_of_ne hm, h.place_held]
        refine exists_congr fun a => ⟨fun hj => ⟨?_, hj⟩, And.right⟩
        rintro rfl
        rw [shows_iff hk, hc, Option.some.injEq, Prod.mk.injEq] at hj
        exact hm hj.1.symm
    place_finished := by
      intro m
      rw [mem_append, mem_singleton]
      by_cases hm : m = n
      · subst hm
        simp
      · rw [update_of_ne hm, h.place_finished]
        simp [hm]
    own := fun j m a hj => h.own j m a ((shows_set_leave hk he).mp hj).2
    mem_ran := by
      intro m
      simp only [shows_set_leave (f := runs) hk hruns']
      rw [h.mem_ran m]
      by_cases hm : m = n
      · subst hm
        rw [update_self, hplace]
        simp only [true_or, iff_true]
        exact .inr ⟨k, (shows_iff hk).mpr hruns⟩
      · rw [update_of_ne hm]
        refine or_congr_right (exists_congr fun j => ⟨fun hj => ⟨?_, hj⟩, And.right⟩)
        rintro rfl
        rw [shows_iff hk, hruns, Option.some.injEq] at hj
        exact hm hj.symm
    ranOwn := h.ranOwn
    ranNodup := h.ranNodup
    finishedNodup := by
      rw [← concat_eq_append]
      exact List.Nodup.concat hnot h.finishedNodup
    count := by
      have hcount := countP_set_add (e := e) (fun c => (held c).isSome) hk
      have hold := h.count
      simp only [hc, he, Option.isSome_none, Option.isSome_some, Bool.false_eq_true, ↓reduceIte]
        at hcount
      rw [length_append, length_singleton]
      omega }

end

end Handout

end GnuOS.Lib
