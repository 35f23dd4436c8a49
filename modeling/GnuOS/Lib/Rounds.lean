import GnuOS.Lib.Memory

/-!
# Rounds of code that reads a region

`Ends good post x` says how the code `x` ends: it reads inside the region exactly if `good` holds,
and then `post` holds of its value.  A read, a sequence and a loop have a rule each.

A round of a loop goes on to the next one or returns a value.  `rounds` passes a state from round to
round, and `Reached` are the states in which the rounds begin; `search` passes none.
-/

namespace GnuOS.Lib.Outcome

variable {α β σ : Type}

/-- The code ends with a value, so it has read inside the region only. -/
def Defined (x : Outcome α) : Prop := ∃ a, x = value a

inductive Ends (good : Prop) (post : α → Prop) : Outcome α → Prop
  | value (a : α) (hgood : good) (hpost : post a) : Ends good post (value a)
  | outside (hgood : ¬ good) : Ends good post outside

namespace Ends

variable {good good' : Prop} {post post' : α → Prop} {x : Outcome α}

theorem defined_iff (h : Ends good post x) : x.Defined ↔ good := by
  cases h with
  | value a hgood _ => exact iff_of_true ⟨a, rfl⟩ hgood
  | outside hgood =>
    refine iff_of_false ?_ hgood
    rintro ⟨a, ha⟩
    cases ha

theorem of_value {a : α} (h : Ends good post (.value a)) : good ∧ post a := by
  cases h with
  | value _ hgood hpost => exact ⟨hgood, hpost⟩

theorem congr (h : Ends good post x) (hgood : good ↔ good') (hpost : ∀ a, post a → post' a) :
    Ends good' post' x := by
  cases h with
  | value a hg hp => exact .value a (hgood.mp hg) (hpost a hp)
  | outside hg => exact .outside fun h => hg (hgood.mpr h)

theorem bind {f : α → Outcome β} {post' : β → Prop} (h : Ends good post x) (himp : good' → good)
    (hf : ∀ a, good → post a → Ends good' post' (f a)) : Ends good' post' (x >>= f) := by
  cases h with
  | value a hgood hpost => exact hf a hgood hpost
  | outside hgood => exact .outside fun h => hgood (himp h)

end Ends

/-! ## Rounds without a state -/

/-- The first `n` rounds, up to the one that returns. -/
def search (body : ℕ → Outcome (Option β)) : ℕ → Outcome (Option β)
  | 0 => value none
  | n + 1 => search body n >>= fun r =>
    match r with
    | some b => value (some b)
    | none => body n

/-- A search reads inside the region exactly if the rounds do up to the first one that returns. -/
theorem Ends.search {body : ℕ → Outcome (Option β)} {good found : ℕ → Prop}
    (hbody : ∀ k, Ends (good k) (fun r => r.isSome = true ↔ found k) (body k)) (n : ℕ) :
    Ends (∀ k < n, (∀ j < k, ¬ found j) → good k) (fun r => r.isSome = true ↔ ∃ k < n, found k)
      (Outcome.search body n) := by
  induction n with
  | zero => exact .value none (by simp) (by simp)
  | succ n ih =>
    refine ih.bind (fun h k hk => h k (by omega)) ?_
    intro r hgood hr
    cases r with
    | some b =>
      obtain ⟨i, hi, hfound⟩ := hr.mp rfl
      refine .value _ ?_ (iff_of_true rfl ⟨i, by omega, hfound⟩)
      intro k hk hreached
      rcases Nat.lt_succ_iff_lt_or_eq.mp hk with hlt | rfl
      · exact hgood k hlt hreached
      · exact absurd hfound (hreached i hi)
    | none =>
      have hnone : ∀ j < n, ¬ found j := by
        intro j hj hfound
        cases hr.mpr ⟨j, hj, hfound⟩
      refine (hbody n).congr ?_ ?_
      · rw [Nat.forall_lt_succ_right]
        exact ⟨fun h => ⟨hgood, fun _ => h⟩, fun h => h.2 hnone⟩
      · intro r hr'
        rw [hr', Nat.exists_lt_succ_right]
        exact ⟨.inr, fun h => h.resolve_left fun ⟨j, hj, hfound⟩ => hnone j hj hfound⟩

/-! ## Rounds with a state -/

/-- The rounds from `i` on, `n` of them, up to the first one that returns. -/
def rounds (body : ℕ → σ → Outcome (Option β × σ)) : ℕ → ℕ → σ → Outcome (Option β × σ)
  | 0, _, s => value (none, s)
  | n + 1, i, s => body i s >>= fun r =>
    match r with
    | (some b, s) => value (some b, s)
    | (none, s) => rounds body n (i + 1) s

/-- The states in which the rounds begin, where `goes k s s'` says that round `k` goes on from `s`
to `s'`. -/
inductive Reached (goes : ℕ → σ → σ → Prop) (s : σ) : ℕ → σ → Prop
  | first : Reached goes s 0 s
  | next {k : ℕ} {t t' : σ} (h : Reached goes s k t) (hgoes : goes k t t') :
      Reached goes s (k + 1) t'

variable {body : ℕ → σ → Outcome (Option β × σ)} {goes : ℕ → σ → σ → Prop}
  {good : ℕ → σ → Prop}

theorem rounds_concat (n i : ℕ) (s : σ) :
    rounds body (n + 1) i s = rounds body n i s >>= fun r =>
      match r with
      | (some b, t) => value (some b, t)
      | (none, t) => body (i + n) t := by
  induction n generalizing i s with
  | zero =>
    rw [rounds, rounds, value_bind]
    simp only [rounds, Nat.add_zero]
    rcases body i s with ⟨_ | b, t⟩ | _ | _ <;> rfl
  | succ n ih =>
    rw [rounds, rounds]
    rcases body i s with ⟨_ | b, t⟩ | _ | _
    · show rounds body (n + 1) (i + 1) t = rounds body n (i + 1) t >>= _
      rw [ih, show i + 1 + n = i + (n + 1) by omega]
    · rfl
    · rfl
    · rfl

/-- The rounds read inside the region exactly if every round that is reached does. -/
theorem Ends.rounds
    (hbody : ∀ k t, Ends (good k t) (fun r => ∀ t', r = (none, t') ↔ goes k t t') (body k t))
    (n : ℕ) (s : σ) :
    Ends (∀ k < n, ∀ t, Reached goes s k t → good k t)
      (fun r => (∀ t, r = (none, t) ↔ Reached goes s n t) ∧
        (r.1.isSome = true → ∃ k < n, ∃ t, Reached goes s k t ∧ body k t = .value r))
      (Outcome.rounds body n 0 s) := by
  induction n with
  | zero =>
    refine .value _ (fun k hk => absurd hk (Nat.not_lt_zero k)) ⟨?_, fun h => by cases h⟩
    intro t
    constructor
    · intro h
      cases h
      exact .first
    · intro h
      cases h
      rfl
  | succ n ih =>
    rw [rounds_concat, Nat.zero_add]
    refine ih.bind (fun h k hk => h k (by omega)) ?_
    rintro ⟨_ | b, t⟩ hgood ⟨hreached, hreturned⟩
    · -- round `n` begins, in the state `t` and in no other
      have hunique : ∀ u, Reached goes s n u → u = t := by
        intro u hu
        cases (hreached u).mpr hu
        rfl
      have ht : Reached goes s n t := (hreached t).mp rfl
      show Ends _ _ (body n t)
      generalize hx : body n t = x
      have hround := hbody n t
      rw [hx] at hround
      cases hround with
      | outside hnot => exact .outside fun h => hnot (h n (by omega) t ht)
      | value r hgood' hgoes =>
        refine .value r ?_ ⟨?_, fun _ => ⟨n, by omega, t, ht, hx⟩⟩
        · rw [Nat.forall_lt_succ_right]
          refine ⟨hgood, ?_⟩
          intro u hu
          rw [hunique u hu]
          exact hgood'
        · intro t'
          rw [hgoes]
          constructor
          · exact fun h => .next ht h
          · intro h
            cases h with
            | next hu hstep =>
              rw [hunique _ hu] at hstep
              exact hstep
    · -- a round before has returned
      have hnone : ∀ u, ¬ Reached goes s n u := by
        intro u hu
        cases (hreached u).mpr hu
      obtain ⟨k, hk, u, hu, hbody'⟩ := hreturned rfl
      refine .value _ ?_ ⟨?_, fun _ => ⟨k, by omega, u, hu, hbody'⟩⟩
      · rw [Nat.forall_lt_succ_right]
        exact ⟨hgood, fun u hu => absurd hu (hnone u)⟩
      · intro t'
        constructor
        · intro h
          cases h
        · intro h
          cases h with
          | next hu _ => exact absurd hu (hnone _)

end GnuOS.Lib.Outcome
