import GnuOS.Sched.Runs

/-!
# Selection

`sched_pick_next_ready` looks for the next task in the array, and then takes it out of the ready
ring by emptying and refilling it.  The two agree on which tasks are ready in every reachable state
(`readyAgrees_run`), and nothing else is needed for the selection (`pick_next_ready`).
-/

namespace GnuOS.Sched

open GnuOS.Lib List

variable {Q : Type} {s : SchedState Q}

/-- The ring of every reachable state agrees with the array. -/
theorem readyAgrees_run [DecidableEq Q] (s : SchedState Q) {ops : List (SchedOp Q)}
    {y : SchedSystem Q} (hrun : ops.foldlM SchedSystem.exec (SchedSystem.start s) = some y) :
    ReadyAgrees y.sched := by
  rcases placed_run s hrun with ⟨place, hplaced⟩
  exact hplaced.represents.readyAgrees

/-- `best` is the ready task with the least pair of runtime and number; if there are several, the
first of them. -/
structure Chosen (s : SchedState Q) (best : ℕ) : Prop where
  lt : best < 128
  ready : (s.tasks best).state = .ready
  least : ∀ i, i < 128 → (s.tasks i).state = .ready →
    (s.tasks best).vruntime < (s.tasks i).vruntime ∨
      ((s.tasks best).vruntime = (s.tasks i).vruntime ∧ (s.tasks best).tid ≤ (s.tasks i).tid)
  first : ∀ i, i < best → (s.tasks i).state = .ready →
    (s.tasks best).vruntime < (s.tasks i).vruntime ∨
      ((s.tasks best).vruntime = (s.tasks i).vruntime ∧ (s.tasks best).tid < (s.tasks i).tid)

theorem Task.key_le_iff {t u : Task} :
    t.key ≤ u.key ↔ t.vruntime < u.vruntime ∨ (t.vruntime = u.vruntime ∧ t.tid ≤ u.tid) := by
  unfold key
  rw [Prod.Lex.toLex_le_toLex, BitVec.toNat_inj]
  rfl

/-- The ready tasks are in the order of the array. -/
theorem le_of_idxOf_le {tasks : ℕ → Task} {n i j : ℕ}
    (hi : i ∈ readySlots tasks (range n)) (hj : j ∈ readySlots tasks (range n))
    (h : (readySlots tasks (range n)).idxOf i ≤ (readySlots tasks (range n)).idxOf j) :
    i ≤ j := by
  have hsorted : (readySlots tasks (range n)).Pairwise (· < ·) :=
    pairwise_lt_range.filter _
  rcases Nat.lt_or_eq_of_le h with hlt | heq
  · have hget := pairwise_iff_getElem.mp hsorted _ _ (idxOf_lt_length_of_mem hi)
      (idxOf_lt_length_of_mem hj) hlt
    rw [getElem_idxOf, getElem_idxOf] at hget
    exact Nat.le_of_lt hget
  · exact Nat.le_of_eq ((idxOf_inj hi).mp heq)

theorem chosen_of_argmin {best : ℕ}
    (h : (readySlots s.tasks (range 128)).argmin (fun i => (s.tasks i).key) = some best) :
    Chosen s best := by
  obtain ⟨hmem, hleast, hfirst⟩ := argmin_eq_some_iff.mp h
  obtain ⟨hrange, hready⟩ := mem_readySlots.mp hmem
  have hlt : best < 128 := mem_range.mp hrange
  refine ⟨hlt, hready, ?_, ?_⟩
  · intro i hi hstate
    exact Task.key_le_iff.mp (hleast i (mem_readySlots.mpr ⟨mem_range.mpr hi, hstate⟩))
  · intro i hi hstate
    have hi' := mem_readySlots.mpr ⟨mem_range.mpr (hi.trans hlt), hstate⟩
    apply Task.key_lt_iff.mp
    -- a task before `best` with the same key would have been kept by the scan
    by_contra hnot
    exact absurd (le_of_idxOf_le hmem hi' (hfirst i hi' (not_lt.mp hnot))) (Nat.not_le.mpr hi)

/-- For every state in which the ready ring and the array agree: `sched_pick_next_ready` fails
exactly when no task is ready, and then changes nothing; otherwise it returns the ready task with
the least pair of runtime and number, and the ring is the one before without this task, in the same
order and starting at index 0. -/
theorem pick_next_ready (h : ReadyAgrees s) :
    ((schedPickNextReady s).1 = none ↔ ∀ i, i < 128 → (s.tasks i).state ≠ .ready) ∧
    ((schedPickNextReady s).1 = none → (schedPickNextReady s).2 = s) ∧
    ∀ best, (schedPickNextReady s).1 = some best →
      Chosen s best ∧ best ∈ s.readyList ∧
      ∃ r, (schedPickNextReady s).2 = { s with readyQueue := r } ∧ r.Valid 128 ∧ r.head = 0 ∧
        r.contents 128 = s.readyList.erase best := by
  rcases h.pickNextReady with ⟨hpick, hnone⟩ | ⟨b, r, hpick, hbest, hr, hhead, hcont⟩
  · rw [hpick]
    refine ⟨iff_of_true rfl hnone, fun _ => rfl, ?_⟩
    intro best hbest
    cases hbest
  · have hchosen := chosen_of_argmin hbest
    rw [hpick]
    refine ⟨iff_of_false (by simp) fun hnone => hnone b hchosen.lt hchosen.ready, ?_, ?_⟩
    · intro hnone
      cases hnone
    · intro best heq
      cases heq
      refine ⟨hchosen, (h.mem_iff b).mpr ⟨hchosen.lt, hchosen.ready⟩, r, rfl, hr, hhead, ?_⟩
      rw [hcont, h.nodup.erase_eq_filter]
      apply filter_congr
      intro j _
      rw [Bool.eq_iff_iff, decide_eq_true_eq, bne_iff_ne]

/-- Two tasks are created, the first one runs for a tick and yields: the second one is next. -/
def yieldAfterTick : List (SchedOp Unit) :=
  [.createClaim 0#64 1#64 0#64, .createClaim 0#64 1#64 0#64, .prepareTaskStack 0 0x5000#64,
    .prepareTaskStack 1 0x6000#64, .createReady 0, .createReady 1, .run, .tick, .yield]

theorem pick_next_ready_after_tick :
    ∃ y, yieldAfterTick.foldlM SchedSystem.exec (SchedSystem.start staleSched) = some y ∧
      y.sched.readyList = [1, 0] ∧ Chosen y.sched 1 ∧
      ∃ r, (schedPickNextReady y.sched).2 = { y.sched with readyQueue := r } ∧ r.Valid 128 ∧
        r.head = 0 ∧ r.contents 128 = [1, 0].erase 1 := by
  have hrun : (yieldAfterTick.foldlM SchedSystem.exec (SchedSystem.start staleSched)).map
      (fun y => (y.sched.readyList, (schedPickNextReady y.sched).1)) = some ([1, 0], some 1) := by
    decide +kernel
  obtain ⟨y, hy, heq⟩ := Option.map_eq_some_iff.mp hrun
  rw [Prod.mk.injEq] at heq
  have hpick := (pick_next_ready (readyAgrees_run _ hy)).2.2 1 heq.2
  rw [heq.1] at hpick
  exact ⟨y, hy, heq.1, hpick.1, hpick.2.2⟩

end GnuOS.Sched
