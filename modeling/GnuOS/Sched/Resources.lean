import GnuOS.Pmm.Refinement
import GnuOS.Sched.Runs

/-!
# The resources of tasks

The scheduler together with the page allocator that gives each task its kernel stack.  A slot of
the task table and a stack page are taken when a task is created; `sched_task_exit` gives neither
of them back.
-/

namespace GnuOS.Sched

open GnuOS.Lib GnuOS.Pmm Function List

variable {Q : Type}

/-! ## Model -/

/-- `sched_create_kernel_task`, as one call: the slot of the new task, or `none` for `NULL`. -/
def schedCreateKernelTask (s : SchedState Q) (pmm : PmmState) (name entry arg : BitVec 64) :
    Option ℕ × SchedState Q × PmmState :=
  match schedCreateClaim s name entry arg with
  | (none, s) => (none, s, pmm)
  | (some index, s) =>
    let page := (pmmAllocPage pmm).1
    let pmm := (pmmAllocPage pmm).2
    match schedPrepareTaskStack s index page with
    | (false, s) => (none, schedCreateRollback s index, pmm)
    | (true, s) =>
      match schedCreateReady s index with
      | (false, s) => (none, s, pmm)
      | (true, s) => (some index, s, pmm)

/-- The scheduler and the page allocator, with a history: how many tasks were created, how many of
them have exited, and the pages that `sched_prepare_task_stack` was given. -/
structure TaskSystem (Q : Type) where
  system : SchedSystem Q
  pmm : PmmState
  created : ℕ
  exited : ℕ
  stackPages : List (BitVec 64)

/-- The sections of a creation are steps of their own, so that others can come between them; the
stack is prepared with a page of the allocator, which the rest of the kernel uses as well. -/
inductive TaskOp (Q : Type)
  | sched (op : SchedOp Q)
  | prepareTaskStack (index : ℕ)
  | pages (op : PmmOp)

/-- The step lets a creation return its task. -/
def SchedOp.creates (s : SchedState Q) : SchedOp Q → ℕ
  | .createReady index => if (schedCreateReady s index).1 then 1 else 0
  | _ => 0

def SchedOp.exits : SchedOp Q → ℕ
  | .taskExit => 1
  | _ => 0

/-- The rest of the kernel does not free a stack. -/
def sparesStacks (stackPages : List (BitVec 64)) : PmmOp → Bool
  | .freePage addr => !stackPages.contains addr
  | _ => true

namespace TaskSystem

/-- After `sched_init`, with the allocator in any state. -/
def start (s : SchedState Q) (pmm : PmmState) : TaskSystem Q :=
  ⟨SchedSystem.start s, pmm, 0, 0, []⟩

variable [DecidableEq Q]

def exec (y : TaskSystem Q) : TaskOp Q → Option (TaskSystem Q)
  | .sched (.prepareTaskStack _ _) => none
  | .sched op =>
    (y.system.exec op).map fun z =>
      { y with
        system := z
        created := y.created + op.creates y.system.sched
        exited := y.exited + op.exits }
  | .prepareTaskStack index =>
    let page := (pmmAllocPage y.pmm).1
    (y.system.exec (.prepareTaskStack index page)).map fun z =>
      { y with
        system := z
        pmm := (pmmAllocPage y.pmm).2
        stackPages := if page = 0#64 then y.stackPages else page :: y.stackPages }
  | .pages op =>
    if sparesStacks y.stackPages op then some { y with pmm := (op.exec y.pmm).2 } else none

end TaskSystem

/-! ## What is held -/

/-- The stack pages that the allocator counts as allocated. -/
def TaskSystem.heldStackPages (y : TaskSystem Q) : Finset ℕ :=
  (sets y.pmm).allocated.filter fun p => y.stackPages.contains (pageAddr y.pmm p)

/-- No creation is under way. -/
def TaskSystem.Quiet (y : TaskSystem Q) : Prop := ∀ i, y.system.creating i = none

/-- Finished tasks have given back their resources: a creation fails only for want of a page or
with 128 living tasks, and there are as many stacks as living tasks. -/
structure ResourcesReturned (y : TaskSystem Q) : Prop where
  creates : ∀ name entry arg : BitVec 64, entry ≠ 0#64 → y.created - y.exited < 128 →
    0 < pmmFreePages y.pmm →
    (schedCreateKernelTask y.system.sched y.pmm name entry arg).1.isSome
  pages : y.heldStackPages.card = y.created - y.exited

/-! ## The invariant -/

/-- The slot belongs to a task that was created; it may have exited. -/
def Place.taken (p : Place Q) : Prop := p ≠ .unused ∧ p ≠ .creating

instance [DecidableEq Q] (p : Place Q) : Decidable p.taken := instDecidableAnd

/-- The stacks are different pages, which the allocator counts as allocated. -/
structure StacksAllocated (pmm : PmmState) (stackPages : List (BitVec 64)) : Prop where
  good : Good pmm
  nodup : stackPages.Nodup
  allocated : ∀ addr ∈ stackPages, ∃ p ∈ (sets pmm).allocated, addr = pageAddr pmm p

/-- The history agrees with the places of the tasks and with the allocator. -/
structure Accounted [DecidableEq Q] (y : TaskSystem Q) (place : ℕ → Place Q) : Prop where
  placed : Placed y.system place
  created : y.created = countBelow 128 Place.taken place
  exited : y.exited = countBelow 128 (· = Place.exited) place
  pages : y.stackPages.length =
    y.created + countBelow 128 (· = some CreatePhase.prepared) y.system.creating
  held : StacksAllocated y.pmm y.stackPages

/-! ## Steps of the scheduler -/

section
variable {y y' : SchedSystem Q} {place place' : ℕ → Place Q} {op : SchedOp Q}

/-- A move keeps a created or exited task one, unless it ends a creation or a task. -/
theorem TaskMove.sorts {i : ℕ} {p p' : Place Q} (h : TaskMove y i op p p')
    (hready : op ≠ .createReady i) (hexit : op ≠ .taskExit) :
    (p'.taken ↔ p.taken) ∧ (p' = .exited ↔ p = .exited) := by
  cases h with
  | created => exact absurd rfl hready
  | exits => exact absurd rfl hexit
  | _ => simp [Place.taken]

theorem Move.sorts (h : Placed y place) (hmove : Move y place op place') :
    (∀ i, i < 128 → ((place' i).taken ↔ (place i).taken) ∧
      (place' i = .exited ↔ place i = .exited)) ∨
    (∃ i, i < 128 ∧ op = .createReady i ∧ place i = .creating ∧
      place' = update place i .ready) ∨
    ∃ i, i < 128 ∧ op = .taskExit ∧ place i = .running ∧
      place' = update place i .exited := by
  have htask := hmove.task h
  cases hmove with
  | stay => exact .inl fun i _ => ⟨Iff.rfl, Iff.rfl⟩
  | created hi hcr => exact .inr (.inl ⟨_, hi, rfl, hcr, rfl⟩)
  | exits hcur =>
    obtain ⟨hi, _, hrun, _⟩ := h.represents.of_current hcur
    exact .inr (.inr ⟨_, hi, rfl, hrun, rfl⟩)
  | leaves hop =>
    exact .inl fun i _ => (htask i).sorts (by rcases hop with rfl | rfl <;> simp)
      (by rcases hop with rfl | rfl <;> simp)
  | _ => exact .inl fun i _ => (htask i).sorts (by simp) (by simp)

theorem Placed.creates_eq_one (h : Placed y place) {i : ℕ} (hi : i < 128)
    (hcr : place i = .creating) : SchedOp.creates y.sched (.createReady i : SchedOp Q) = 1 := by
  rcases schedCreateReady_spec h.represents hi hcr with ⟨s', hready, _⟩
  simp only [SchedOp.creates, hready, if_true]

theorem Place.state_eq_exited {p : Place Q} : p.state = .exited ↔ p = .exited := by
  cases p <;> simp [Place.state]

variable [DecidableEq Q]

/-- The two steps that count do not leave the places as they are. -/
theorem Placed.counts_nothing (h : Placed y place) (h' : Placed y' place')
    (hexec : y.exec op = some y')
    (hkeep : ∀ i, i < 128 → ((place' i).taken ↔ (place i).taken) ∧
      (place' i = .exited ↔ place i = .exited)) :
    op.creates y.sched = 0 ∧ op.exits = 0 := by
  cases op
  case createReady i =>
    obtain ⟨hprepared, hexec⟩ := Option.ite_none_right_eq_some.mp hexec
    rcases (h.creating i).mpr (by simp [hprepared]) with ⟨hi, hcr⟩
    rcases schedCreateReady_spec h.represents hi hcr with ⟨s', hready, hrep⟩
    rw [hready] at hexec
    have hstate := h'.represents.state i hi
    rw [← Option.some.inj hexec, show (s'.tasks i).state = _ from hrep.state i hi,
      update_self, eq_comm, Place.state, Place.state_eq_ready] at hstate
    have htaken := (hkeep i hi).1
    rw [hstate, hcr] at htaken
    simp [Place.taken] at htaken
  case taskExit =>
    obtain ⟨s', hexit, rfl⟩ := Option.map_eq_some_iff.mp hexec
    rcases schedTaskExit_spec h.represents hexit with ⟨i, hcur, hrep⟩
    obtain ⟨hi, _, hrun, _⟩ := h.represents.of_current hcur
    have hstate := h'.represents.state i hi
    rw [show (s'.tasks i).state = _ from hrep.state i hi, update_self, eq_comm,
      Place.state, Place.state_eq_exited] at hstate
    have hexited := (hkeep i hi).2
    rw [hstate, hrun] at hexited
    simp at hexited
  all_goals exact ⟨rfl, rfl⟩

/-- How the two numbers change with a step. -/
theorem Placed.counts (h : Placed y place) (hexec : y.exec op = some y') :
    ∃ place', Placed y' place' ∧
      countBelow 128 Place.taken place' = countBelow 128 Place.taken place + op.creates y.sched ∧
      countBelow 128 (· = Place.exited) place' =
        countBelow 128 (· = Place.exited) place + op.exits := by
  rcases h.exec_move op hexec with ⟨place', hmove, h'⟩
  refine ⟨place', h', ?_⟩
  rcases hmove.sorts h with hkeep | ⟨i, hi, rfl, hcr, rfl⟩ | ⟨i, hi, rfl, hrun, rfl⟩
  · obtain ⟨hcreates, hexits⟩ := h.counts_nothing h' hexec hkeep
    rw [hcreates, hexits]
    exact ⟨countBelow_congr fun i hi => (hkeep i hi).1,
      countBelow_congr fun i hi => (hkeep i hi).2⟩
  · have htaken := countBelow_update Place.taken place .ready hi
    have hexited := countBelow_update (· = Place.exited) place .ready hi
    rw [hcr] at htaken hexited
    simp only [Place.taken, ne_eq, reduceCtorEq, not_false_eq_true, not_true_eq_false, and_false,
      if_true, if_false, add_zero, and_self] at htaken hexited
    rw [h.creates_eq_one hi hcr]
    exact ⟨htaken, hexited⟩
  · have htaken := countBelow_update Place.taken place .exited hi
    have hexited := countBelow_update (· = Place.exited) place .exited hi
    rw [hrun] at htaken hexited
    simp only [Place.taken, ne_eq, reduceCtorEq, not_false_eq_true, and_self, if_true, if_false,
      Nat.add_right_cancel_iff, add_zero] at htaken hexited
    exact ⟨htaken, hexited⟩

/-- A creation that ends has had its stack. -/
theorem Placed.prepared_count (h : Placed y place) (hexec : y.exec op = some y')
    (hop : ∀ i page, op ≠ .prepareTaskStack i page) :
    countBelow 128 (· = some CreatePhase.prepared) y'.creating + op.creates y.sched =
      countBelow 128 (· = some CreatePhase.prepared) y.creating := by
  cases op with
  | createClaim name entry arg =>
    simp only [SchedSystem.exec] at hexec
    rcases schedCreateClaim_spec h.represents name entry arg
      with hclaim | ⟨i, s', hclaim, hi, hunused, hrep⟩
    · rw [hclaim] at hexec
      rw [← Option.some.inj hexec]
      rfl
    · rw [hclaim] at hexec
      have hnone : y.creating i = none := by
        by_contra hne
        have hcr := ((h.creating i).mpr hne).2
        rw [hunused] at hcr
        exact absurd hcr (by simp)
      have hcount := countBelow_update (· = some CreatePhase.prepared) y.creating (some .claimed) hi
      rw [← Option.some.inj hexec]
      simp only [hnone, reduceCtorEq, if_false, add_zero, Option.some.injEq] at hcount
      exact hcount
  | prepareTaskStack i page => exact absurd rfl (hop i page)
  | createReady i =>
    obtain ⟨hprepared, hexec⟩ := Option.ite_none_right_eq_some.mp hexec
    rcases (h.creating i).mpr (by simp [hprepared]) with ⟨hi, hcr⟩
    have hcount := countBelow_update (· = some CreatePhase.prepared) y.creating none hi
    rw [← Option.some.inj hexec, h.creates_eq_one hi hcr]
    simp only [hprepared, if_true, reduceCtorEq, if_false, add_zero] at hcount
    exact hcount
  | createRollback i =>
    obtain ⟨hfailed, hexec⟩ := Option.ite_none_right_eq_some.mp hexec
    rcases (h.creating i).mpr (by simp [hfailed]) with ⟨hi, _⟩
    have hcount := countBelow_update (· = some CreatePhase.prepared) y.creating none hi
    rw [← Option.some.inj hexec]
    simp only [hfailed, Option.some.injEq, reduceCtorEq, if_false, add_zero] at hcount
    exact hcount
  | taskExit =>
    obtain ⟨s', _, rfl⟩ := Option.map_eq_some_iff.mp hexec
    rfl
  | waitQueueInit =>
    obtain ⟨-, hexec⟩ := Option.ite_none_left_eq_some.mp hexec
    rw [← Option.some.inj hexec]
    rfl
  | waitQueueWait | waitQueueWakeOne | waitQueueWakeAll =>
    obtain ⟨-, hexec⟩ := Option.ite_none_right_eq_some.mp hexec
    rw [← Option.some.inj hexec]
    rfl
  | tick | requestResched | preemptOnTick | run | yield =>
    rw [← Option.some.inj hexec]
    rfl

end

/-! ## Steps of the allocator -/

section
variable {s : PmmState} {stackPages : List (BitVec 64)} {p : ℕ}

section

variable (h : StacksAllocated s stackPages)

include h

/-- A stack stays allocated while others use the allocator. -/
theorem StacksAllocated.exec (op : PmmOp) (hspares : sparesStacks stackPages op = true) :
    StacksAllocated (op.exec s).2 stackPages := by
  obtain ⟨hG, hbase, _⟩ := good_exec h.good op
  refine ⟨hG, h.nodup, ?_⟩
  intro addr hmem
  obtain ⟨p, hp, rfl⟩ := h.allocated addr hmem
  refine ⟨p, ?_, by rw [pageAddr, pageAddr, hbase]⟩
  have hstep := exec_absStep h.good op
  generalize (op.exec s).1 = ret at hstep
  generalize sets (op.exec s).2 = B at hstep ⊢
  cases hstep with
  | allocNone _ => exact hp
  | allocSome _ _ => exact Finset.mem_insert_of_mem hp
  | freeHit hq =>
    apply Finset.mem_erase.mpr
    refine ⟨?_, hp⟩
    rintro rfl
    simp [sparesStacks, hmem] at hspares
  | freeMiss _ => exact hp
  | reserve _ _ R hR => exact hp

/-- A page of the allocator is a new stack. -/
theorem StacksAllocated.alloc (hpage : (pmmAllocPage s).1 ≠ 0#64) :
    StacksAllocated (pmmAllocPage s).2 ((pmmAllocPage s).1 :: stackPages) := by
  have hold : StacksAllocated (pmmAllocPage s).2 stackPages := h.exec .allocPage rfl
  rcases pmmAllocPage_spec h.good.inv with ⟨hrun, _⟩ | ⟨x, s', hrun, hx, hfree, hC⟩
  · rw [hrun] at hpage
    exact absurd rfl hpage
  rw [hrun] at hold ⊢
  refine ⟨hold.good, nodup_cons.mpr ⟨?_, h.nodup⟩, ?_⟩
  · intro hmem
    obtain ⟨p, hp, heq⟩ := h.allocated _ hmem
    obtain ⟨hlt, hst⟩ := mem_pagesWith.mp hp
    rw [← pageAddr_injective h.good.window hx hlt heq, hfree] at hst
    exact absurd hst (by decide)
  · intro addr hmem
    rcases mem_cons.mp hmem with rfl | hmem
    · refine ⟨x, mem_pagesWith.mpr ⟨by rw [hC.total]; exact hx, ?_⟩, ?_⟩
      · rw [hC.status x hx, if_pos rfl]
      · show pageAddr s x = pageAddr s' x
        rw [pageAddr, pageAddr, hC.base]
    · exact hold.allocated addr hmem

/-- So there are as many pages as stacks. -/
theorem StacksAllocated.card :
    ((sets s).allocated.filter fun p => stackPages.contains (pageAddr s p)).card =
      stackPages.length := by
  rw [← toFinset_card_of_nodup h.nodup]
  apply Finset.card_bij fun p _ => pageAddr s p
  · intro p hp
    exact mem_toFinset.mpr (contains_iff_mem.mp (Finset.mem_filter.mp hp).2)
  · intro p hp q hq heq
    have hlt := (mem_pagesWith.mp (Finset.mem_filter.mp hp).1).1
    have hlt' := (mem_pagesWith.mp (Finset.mem_filter.mp hq).1).1
    exact pageAddr_injective h.good.window hlt hlt' heq
  · intro addr hmem
    rw [mem_toFinset] at hmem
    obtain ⟨p, hp, rfl⟩ := h.allocated addr hmem
    exact ⟨p, Finset.mem_filter.mpr ⟨hp, contains_iff_mem.mpr hmem⟩, rfl⟩

end

end

/-! ## Runs -/

theorem schedPrepareTaskStack_fst (s : SchedState Q) (index : ℕ) (page : BitVec 64) :
    (schedPrepareTaskStack s index page).1 = decide (page ≠ 0#64) := by
  unfold schedPrepareTaskStack
  by_cases hpage : page = 0#64
  · simp [hpage]
  · simp [hpage]

section
variable [DecidableEq Q] {y y' : TaskSystem Q} {place : ℕ → Place Q}

theorem Accounted.start (s : SchedState Q) {pmm : PmmState} (hG : Good pmm) :
    Accounted (TaskSystem.start s pmm) fun _ => Place.unused where
  placed := Placed.start s
  created := by rw [countBelow_eq_zero (by simp [Place.taken])]; rfl
  exited := by rw [countBelow_eq_zero (by simp)]; rfl
  pages := by rw [countBelow_eq_zero (by simp [TaskSystem.start, SchedSystem.start])]; rfl
  held := ⟨hG, nodup_nil, fun _ h => absurd h not_mem_nil⟩

theorem Accounted.sched (h : Accounted y place) {op : SchedOp Q} {z : SchedSystem Q}
    (hexec : y.system.exec op = some z) (hop : ∀ i page, op ≠ .prepareTaskStack i page) :
    ∃ place', Accounted { y with
      system := z
      created := y.created + op.creates y.system.sched
      exited := y.exited + op.exits } place' := by
  obtain ⟨place', hplaced, hcreated, hexited⟩ := h.placed.counts hexec
  have hprepared := h.placed.prepared_count hexec hop
  have hpages := h.pages
  refine ⟨place', hplaced, ?_, ?_, ?_, h.held⟩
  · rw [hcreated, ← h.created]
  · rw [hexited, ← h.exited]
  · simp only
    omega

theorem Accounted.prepare (h : Accounted y place) {index : ℕ}
    (hexec : y.exec (.prepareTaskStack index) = some y') : ∃ place', Accounted y' place' := by
  simp only [TaskSystem.exec, Option.map_eq_some_iff] at hexec
  obtain ⟨z, hz, rfl⟩ := hexec
  obtain ⟨place', hplaced, hcreated, hexited⟩ := h.placed.counts hz
  have hclaimed : y.system.creating index = some .claimed := by
    by_contra hne
    simp only [SchedSystem.exec, if_neg hne] at hz
    exact absurd hz (by simp)
  have hi := ((h.placed.creating index).mpr (by simp [hclaimed])).1
  simp only [SchedSystem.exec, if_pos hclaimed, Option.some.injEq,
    schedPrepareTaskStack_fst, decide_eq_true_eq] at hz
  have hpages := h.pages
  by_cases hpage : (pmmAllocPage y.pmm).1 = 0#64
  · have hcount := countBelow_update (· = some CreatePhase.prepared) y.system.creating
      (some .failed) hi
    simp only [hpage, ne_eq, not_true_eq_false, if_false] at hz
    simp only [hclaimed, Option.some.injEq, reduceCtorEq, if_false, add_zero] at hcount
    refine ⟨place', hplaced, h.created.trans hcreated.symm, h.exited.trans hexited.symm, ?_, ?_⟩
    · simp only [if_pos hpage, ← hz]
      omega
    · simp only [if_pos hpage]
      exact h.held.exec .allocPage rfl
  · have hcount := countBelow_update (· = some CreatePhase.prepared) y.system.creating
      (some .prepared) hi
    simp only [hpage, ne_eq, not_false_eq_true, if_true] at hz
    simp only [hclaimed, Option.some.injEq, reduceCtorEq, if_true, if_false, add_zero] at hcount
    refine ⟨place', hplaced, h.created.trans hcreated.symm, h.exited.trans hexited.symm, ?_, ?_⟩
    · simp only [if_neg hpage, ← hz, length_cons]
      omega
    · simp only [if_neg hpage]
      exact h.held.alloc hpage

theorem Accounted.exec (h : Accounted y place) {op : TaskOp Q} (hexec : y.exec op = some y') :
    ∃ place', Accounted y' place' := by
  cases op with
  | sched op =>
    by_cases hop : ∀ i page, op ≠ .prepareTaskStack i page
    · have heq : y.exec (.sched op) = (y.system.exec op).map fun z => { y with
          system := z
          created := y.created + op.creates y.system.sched
          exited := y.exited + op.exits } := by
        cases op
        case prepareTaskStack i page => exact absurd rfl (hop i page)
        all_goals rfl
      rw [heq, Option.map_eq_some_iff] at hexec
      obtain ⟨z, hz, rfl⟩ := hexec
      exact h.sched hz hop
    · push Not at hop
      obtain ⟨i, page, rfl⟩ := hop
      exact absurd hexec (by simp [TaskSystem.exec])
  | prepareTaskStack index => exact h.prepare hexec
  | pages op =>
    simp only [TaskSystem.exec] at hexec
    by_cases hspares : sparesStacks y.stackPages op = true
    · rw [if_pos hspares, Option.some.injEq] at hexec
      subst hexec
      exact ⟨place, h.placed, h.created, h.exited, h.pages, h.held.exec op hspares⟩
    · rw [if_neg hspares] at hexec
      exact absurd hexec (by simp)

theorem accounted_run (s : SchedState Q) {pmm : PmmState} (hG : Good pmm) {ops : List (TaskOp Q)}
    (hrun : ops.foldlM TaskSystem.exec (TaskSystem.start s pmm) = some y) :
    ∃ place, Accounted y place := by
  refine run_invariant (P := fun y => ∃ place, Accounted y place) ?_ ⟨_, Accounted.start s hG⟩ hrun
  rintro y op y' ⟨place, hplace⟩ hexec
  exact hplace.exec hexec

end

/-! ## Creating a task -/

section
variable {s : SchedState Q} {live : Q → Prop} {place : ℕ → Place Q} {pmm : PmmState}

theorem schedAllocTaskSlot_eq_none_iff (h : Represents s live place) :
    schedAllocTaskSlot s = none ↔ ∀ i, i < 128 → place i ≠ .unused := by
  rw [schedAllocTaskSlot, find?_eq_none]
  constructor
  · intro hnone i hi hunused
    apply hnone i (mem_range.mpr hi)
    rw [h.state i hi, hunused]
    rfl
  · intro hused i hi hunused
    have hi := mem_range.mp hi
    rw [decide_eq_true_eq, h.state i hi, Place.state_eq_unused] at hunused
    exact hused i hi hunused

/-- A creation succeeds exactly if a slot was never used and a page is free. -/
theorem schedCreateKernelTask_isSome_iff (h : Represents s live place) (hG : Good pmm)
    (name arg : BitVec 64) {entry : BitVec 64} (hentry : entry ≠ 0#64) :
    (schedCreateKernelTask s pmm name entry arg).1.isSome ↔
      (∃ i, i < 128 ∧ place i = .unused) ∧ 0 < pmmFreePages pmm := by
  have hpage : (pmmAllocPage pmm).1 = 0#64 ↔ pmmFreePages pmm = 0 := by
    rw [pmmAllocPage_eq_zero_iff hG, freePages_eq_card hG.inv, Finset.card_eq_zero]
  rcases schedCreateClaim_spec h name entry arg with hclaim | ⟨i, s₁, hclaim, hi, hunused, h₁⟩
  · -- without a slot
    have hslot : schedAllocTaskSlot s = none := by
      cases hslot : schedAllocTaskSlot s with
      | none => rfl
      | some i => simp [schedCreateClaim, hentry, hslot] at hclaim
    rw [schedAllocTaskSlot_eq_none_iff h] at hslot
    simp only [schedCreateKernelTask, hclaim, Option.isSome_none, Bool.false_eq_true, false_iff]
    rintro ⟨⟨i, hi, hunused⟩, _⟩
    exact hslot i hi hunused
  have h₂ := schedPrepareTaskStack_spec h₁ i (pmmAllocPage pmm).1
  have hprepared := schedPrepareTaskStack_fst s₁ i (pmmAllocPage pmm).1
  simp only [schedCreateKernelTask, hclaim]
  generalize schedPrepareTaskStack s₁ i (pmmAllocPage pmm).1 = r at h₂ hprepared ⊢
  obtain ⟨ok, s₂⟩ := r
  by_cases hnone : (pmmAllocPage pmm).1 = 0#64
  · -- without a page
    have hok : ok = false := by simpa [hnone] using hprepared
    subst hok
    have hzero := hpage.mp hnone
    simp [hzero]
  · have hok : ok = true := by simpa [hnone] using hprepared
    subst hok
    rcases schedCreateReady_spec h₂ hi (update_self ..) with ⟨s₃, hready, _⟩
    have hpos : 0 < pmmFreePages pmm := by
      rw [Nat.pos_iff_ne_zero]
      exact fun hzero => hnone (hpage.mpr hzero)
    simp only [hready, Option.isSome_some, true_iff]
    exact ⟨⟨i, hi, hunused⟩, hpos⟩

/-- When the sections of a creation follow each other, they do what the call does. -/
theorem exec_sections [DecidableEq Q] (y : TaskSystem Q) {name entry arg : BitVec 64}
    {index : ℕ}
    (hcall : schedCreateKernelTask y.system.sched y.pmm name entry arg = (some index, s, pmm)) :
    [.sched (.createClaim name entry arg), .prepareTaskStack index,
      .sched (.createReady index)].foldlM TaskSystem.exec y =
    some { y with
      system := { y.system with
        sched := s
        creating := update y.system.creating index none }
      pmm := pmm
      created := y.created + 1
      stackPages := (pmmAllocPage y.pmm).1 :: y.stackPages } ∧
    pmm = (pmmAllocPage y.pmm).2 ∧ (pmmAllocPage y.pmm).1 ≠ 0#64 := by
  simp only [schedCreateKernelTask] at hcall
  split at hcall
  · simp at hcall
  rename_i i s₁ hclaim
  split at hcall
  · simp at hcall
  rename_i s₂ hprepare
  split at hcall
  · simp at hcall
  rename_i s₃ hready
  simp only [Prod.mk.injEq, Option.some.injEq] at hcall
  obtain ⟨rfl, rfl, rfl⟩ := hcall
  have hpage : (pmmAllocPage y.pmm).1 ≠ 0#64 := by
    have hfst := schedPrepareTaskStack_fst s₁ i (pmmAllocPage y.pmm).1
    rw [hprepare] at hfst
    exact of_decide_eq_true hfst.symm
  refine ⟨?_, rfl, hpage⟩
  simp [TaskSystem.exec, SchedSystem.exec, hclaim, hprepare, hready, hpage, SchedOp.creates,
    SchedOp.exits]

theorem pmmAllocPage_freePages (hG : Good pmm) (hpage : (pmmAllocPage pmm).1 ≠ 0#64) :
    pmmFreePages (pmmAllocPage pmm).2 + 1 = pmmFreePages pmm := by
  have hstep := exec_absStep hG .allocPage
  have hafter : pmmFreePages (pmmAllocPage pmm).2 =
      (sets (PmmOp.exec pmm .allocPage).2).free.card :=
    freePages_eq_card (good_exec hG .allocPage).1.inv
  rw [hafter, freePages_eq_card hG.inv]
  change AbsStep _ _ _ (pmmAllocPage pmm).1 _ at hstep
  generalize (pmmAllocPage pmm).1 = ret at hstep hpage
  generalize sets (PmmOp.exec pmm .allocPage).2 = B at hstep ⊢
  cases hstep with
  | allocNone _ => exact absurd rfl hpage
  | allocSome hp _ => exact Finset.card_erase_add_one hp

end

section
variable [DecidableEq Q] {y : TaskSystem Q} {place : ℕ → Place Q}

section

variable (h : Accounted y place)

include h

/-- Without a creation under way, the slots that are left are those in which no task was created. -/
theorem Accounted.creates_iff (hquiet : y.Quiet) (name arg : BitVec 64) {entry : BitVec 64}
    (hentry : entry ≠ 0#64) :
    (schedCreateKernelTask y.system.sched y.pmm name entry arg).1.isSome ↔
      y.created < 128 ∧ 0 < pmmFreePages y.pmm := by
  have hslots : (∃ i, i < 128 ∧ place i = .unused) ↔ y.created < 128 := by
    rw [h.created, countBelow_lt_iff]
    constructor
    · rintro ⟨i, hi, hunused⟩
      exact ⟨i, hi, fun htaken => htaken.1 hunused⟩
    · rintro ⟨i, hi, hfree⟩
      refine ⟨i, hi, ?_⟩
      by_contra hused
      refine hfree ⟨hused, fun hcr => ?_⟩
      exact (h.placed.creating i).mp ⟨hi, hcr⟩ (hquiet i)
  rw [schedCreateKernelTask_isSome_iff h.placed.represents h.held.good name arg hentry, hslots]

theorem Accounted.held_card (hquiet : y.Quiet) :
    y.heldStackPages.card = y.created := by
  have hcount : countBelow 128 (· = some CreatePhase.prepared) y.system.creating = 0 :=
    countBelow_eq_zero fun i _ hprepared => by simp [hquiet i] at hprepared
  have hpages := h.pages
  rw [TaskSystem.heldStackPages, h.held.card]
  omega

/-- Only the slots of the table need to be looked at. -/
theorem Accounted.quiet
    (hslots : ((range 128).all fun i => (y.system.creating i).isNone) = true) : y.Quiet := by
  intro i
  by_cases hi : i < 128
  · exact Option.isNone_iff_eq_none.mp (all_eq_true.mp hslots i (mem_range.mpr hi))
  · by_contra hne
    exact hi ((h.placed.creating i).mpr hne).1

/-- As long as there are slots and pages, tasks can be created one after another. -/
theorem Accounted.create_many (hquiet : y.Quiet) {n : ℕ} (hslots : y.created + n ≤ 128)
    (hpages : n ≤ pmmFreePages y.pmm) :
    ∃ (ops : List (TaskOp Q)) (y' : TaskSystem Q) (place' : ℕ → Place Q),
      ops.foldlM TaskSystem.exec y = some y' ∧ Accounted y' place' ∧ y'.Quiet ∧
        y'.created = y.created + n ∧ y'.exited = y.exited ∧
        pmmFreePages y'.pmm + n = pmmFreePages y.pmm := by
  induction n generalizing y place with
  | zero => exact ⟨[], y, place, rfl, h, hquiet, rfl, rfl, rfl⟩
  | succ n ih =>
    have hentry : 1#64 ≠ 0#64 := by decide
    have hsome := (h.creates_iff hquiet 0#64 0#64 hentry).mpr ⟨by omega, by omega⟩
    obtain ⟨index, hindex⟩ := Option.isSome_iff_exists.mp hsome
    have hcall : schedCreateKernelTask y.system.sched y.pmm 0#64 1#64 0#64 = (some index, _) :=
      Prod.ext hindex rfl
    obtain ⟨hrun, hpmm, hpage⟩ := exec_sections y hcall
    have hfree := pmmAllocPage_freePages h.held.good hpage
    rw [← hpmm] at hfree
    obtain ⟨place₁, h₁⟩ : ∃ place₁, Accounted _ place₁ :=
      run_invariant (P := fun y => ∃ place, Accounted y place)
        (fun y op y' hy hexec => hy.elim fun place hplace => hplace.exec hexec) ⟨place, h⟩ hrun
    have hquiet₁ : ∀ i, update y.system.creating index none i = none := by
      intro i
      by_cases hi : i = index
      · rw [hi, update_self]
      · rw [update_of_ne hi, hquiet i]
    obtain ⟨ops, y', place', hrest, h', hquiet', hcreated, hexited, hfree'⟩ :=
      ih h₁ hquiet₁ (by simp only; omega) (by simp only; omega)
    refine ⟨_, y', place', run_append.mpr ⟨_, hrun, hrest⟩, h', hquiet', ?_, hexited, ?_⟩
    · simp only at hcreated
      omega
    · simp only at hfree'
      omega

end

end

/-! ## Main result -/

/-- **Resources of finished tasks.**  In every run of the scheduler and the page allocator, whenever
no creation is under way: the finished tasks have given back their resources exactly if no task has
finished.  A creation succeeds exactly if fewer than 128 tasks were ever created and a page is
free. -/
theorem resources_returned_iff [DecidableEq Q] (s : SchedState Q) (base memorySize : BitVec 64)
    (pageOps : List PmmOp) (ops : List (TaskOp Q)) (y : TaskSystem Q)
    (hrun : ops.foldlM TaskSystem.exec
      (TaskSystem.start s (runOps (pmmInit base memorySize) pageOps)) = some y)
    (hquiet : y.Quiet) :
    (ResourcesReturned y ↔ y.exited = 0) ∧
    ∀ name entry arg : BitVec 64, entry ≠ 0#64 →
      ((schedCreateKernelTask y.system.sched y.pmm name entry arg).1.isSome ↔
        y.created < 128 ∧ 0 < pmmFreePages y.pmm) := by
  obtain ⟨place, h⟩ := accounted_run s (good_runOps (good_pmmInit base memorySize) pageOps).1 hrun
  have hpages := h.held_card hquiet
  have hexited : y.exited ≤ y.created := by
    rw [h.exited, h.created]
    apply countBelow_mono
    intro i _ hexited
    rw [hexited]
    exact ⟨by simp, by simp⟩
  refine ⟨⟨?_, ?_⟩, fun name entry arg hentry => h.creates_iff hquiet name arg hentry⟩
  · intro hreturned
    have hcard := hreturned.pages
    omega
  · intro hnone
    refine ⟨?_, by omega⟩
    intro name entry arg hentry hlive hfree
    exact (h.creates_iff hquiet name arg hentry).mpr ⟨by omega, hfree⟩

/-- The sections of a creation in slot `index`. -/
def createIn (index : ℕ) : List (TaskOp Unit) :=
  [.sched (.createClaim 0#64 1#64 0#64), .prepareTaskStack index, .sched (.createReady index)]

/-- Two creations, the first task running. -/
def twoTasks : List (TaskOp Unit) := createIn 0 ++ createIn 1 ++ [.sched .run]

theorem resources_returned_iff_two_tasks :
    ∃ y, twoTasks.foldlM TaskSystem.exec
        (TaskSystem.start staleSched (runOps (pmmInit 0#64 0x4000#64) [])) = some y ∧
      y.created = 2 ∧ ResourcesReturned y := by
  have hrun : (twoTasks.foldlM TaskSystem.exec
      (TaskSystem.start staleSched (runOps (pmmInit 0#64 0x4000#64) []))).map
      (fun y => (y.created, y.exited,
        (range 128).all fun i => (y.system.creating i).isNone)) = some (2, 0, true) := by
    decide +kernel
  obtain ⟨y, hy, hcounts⟩ := Option.map_eq_some_iff.mp hrun
  simp only [Prod.mk.injEq] at hcounts
  obtain ⟨hcreated, hexited, hslots⟩ := hcounts
  obtain ⟨place, h⟩ := accounted_run _ (good_runOps (good_pmmInit _ _) _).1 hy
  exact ⟨y, hy, hcreated,
    (resources_returned_iff _ _ _ _ _ y hy (h.quiet hslots)).1.mpr hexited⟩

/-- One task is created, runs and exits. -/
def oneExit : List (TaskOp Unit) := createIn 0 ++ [.sched .run, .sched .taskExit]

/-- One task has exited, and 127 more are created: 127 tasks live, 128 stacks are
held, 127 pages are free, and no task can be created. -/
theorem exited_task_keeps_slot_and_stack :
    ∃ (ops : List (TaskOp Unit)) (y : TaskSystem Unit),
      ops.foldlM TaskSystem.exec
        (TaskSystem.start staleSched (runOps (pmmInit 0#64 0x100000#64) [])) = some y ∧
      y.Quiet ∧ y.created = 128 ∧ y.exited = 1 ∧ y.heldStackPages.card = 128 ∧
      pmmFreePages y.pmm = 127 ∧ ∀ name arg : BitVec 64,
        (schedCreateKernelTask y.system.sched y.pmm name 1#64 arg).1 = none := by
  have hfirst : (oneExit.foldlM TaskSystem.exec
      (TaskSystem.start staleSched (runOps (pmmInit 0#64 0x100000#64) []))).map
      (fun y => (y.created, y.exited, pmmFreePages y.pmm,
        (range 128).all fun i => (y.system.creating i).isNone)) = some (1, 1, 254, true) := by
    decide +kernel
  obtain ⟨y₁, hy₁, hcounts⟩ := Option.map_eq_some_iff.mp hfirst
  simp only [Prod.mk.injEq] at hcounts
  obtain ⟨hcreated₁, hexited₁, hfree₁, hslots⟩ := hcounts
  obtain ⟨place, h⟩ := accounted_run _ (good_runOps (good_pmmInit _ _) _).1 hy₁
  obtain ⟨ops, y, place', hrun, h', hquiet, hcreated, hexited, hfree⟩ :=
    h.create_many (n := 127) (h.quiet hslots) (by omega) (by omega)
  refine ⟨_, y, run_append.mpr ⟨y₁, hy₁, hrun⟩, hquiet, by omega, by omega, ?_, by omega, ?_⟩
  · rw [h'.held_card hquiet]
    omega
  · intro name arg
    rw [← Option.not_isSome_iff_eq_none, h'.creates_iff hquiet name arg (by decide)]
    omega

end GnuOS.Sched
