import GnuOS.Rcu.Callbacks
import Mathlib.Algebra.Group.Nat.Defs

/-!
# Grace periods

A callback is invoked after `synchronize_rcu` has read 0 from the reader counter.  The counter is
the number of open read-side sections modulo 2^64, so while fewer than 2^64 sections are open, none
is open at that moment; the sections that were open when the head was linked have ended by then, and
an ended section does not open again.
-/

namespace GnuOS.Rcu

open GnuOS.Lib List BitVec

/-- A read-side section, open or ended. -/
def Call.isSection (c : Call) : Bool := c.isOpen || c = .closed

variable {calls : List Call} {links : List Link} {invocations : List Invocation} {c e : Call}
  {k n j : ℕ} {readers readers' : BitVec 64}

theorem mem_openSections :
    j ∈ openSections calls ↔ ∃ c, calls[j]? = some c ∧ c.isOpen = true := by
  simp only [openSections, mem_filter, mem_range, Option.any_eq_true]
  constructor
  · exact And.right
  · rintro ⟨c, hj, hc⟩
    exact ⟨(List.getElem?_eq_some_iff.mp hj).1, c, hj, hc⟩

/-- The sections that were open when the head of callback `n` was linked have ended. -/
def GraceOver (links : List Link) (calls : List Call) (n : ℕ) : Prop :=
  ∃ link, links[n]? = some link ∧ ∀ j ∈ link.openAt, calls[j]? = some .closed

theorem GraceOver.begin (h : GraceOver links calls n) : GraceOver links (calls ++ [c]) n := by
  rcases h with ⟨link, hlink, hclosed⟩
  exact ⟨link, hlink, fun j hj => getElem?_concat_iff.mpr (.inl (hclosed j hj))⟩

/-- An ended section takes no step. -/
theorem GraceOver.move (h : GraceOver links calls n) (hk : calls[k]? = some c) (hc : c ≠ .closed) :
    GraceOver links (calls.set k e) n := by
  rcases h with ⟨link, hlink, hclosed⟩
  refine ⟨link, hlink, fun j hj => ?_⟩
  refine (getElem?_set_iff hk).mpr (.inr ⟨?_, hclosed j hj⟩)
  rintro rfl
  have hcj := hclosed j hj
  rw [hk, Option.some.injEq] at hcj
  exact hc hcj

/-! ## The invariant -/

structure Grace (readers : BitVec 64) (calls : List Call) (links : List Link)
    (invocations : List Invocation) : Prop where
  count : readers = BitVec.ofNat 64 (calls.countP Call.isOpen)
  sections : ∀ link ∈ links, ∀ j ∈ link.openAt, ∃ c, calls[j]? = some c ∧ c.isSection = true
  waited : ∀ (k n : ℕ) (head : BitVec 64), calls[k]? = some (.invoking n head) →
    GraceOver links calls n
  invoked : ∀ r ∈ invocations, ∃ link, links[r.n]? = some link ∧ ∀ j ∈ link.openAt, j ∉ r.openAt

namespace Grace

section

variable (h : Grace readers calls links invocations)

include h

/-- A call begins. -/
theorem begin (hc : ∀ n head, c ≠ .invoking n head)
    (hcount : readers' = BitVec.ofNat 64 ((calls ++ [c]).countP Call.isOpen)) :
    Grace readers' (calls ++ [c]) links invocations where
  count := hcount
  sections link hlink j hj := by
    rcases h.sections link hlink j hj with ⟨d, hd, hsection⟩
    exact ⟨d, getElem?_concat_iff.mpr (.inl hd), hsection⟩
  waited k n head hk := by
    rcases getElem?_concat_iff.mp hk with hk | ⟨_, heq⟩
    · exact (h.waited k n head hk).begin
    · exact absurd heq.symm (hc n head)
  invoked := h.invoked

/-- A call that is not a section begins. -/
theorem begin_other (hc : ∀ n head, c ≠ .invoking n head) (hopen : c.isOpen = false) :
    Grace readers (calls ++ [c]) links invocations := by
  refine h.begin hc ?_
  rw [countP_concat, hopen]
  exact h.count

/-- A step of a call that neither opens nor ends a section. -/
theorem count_set (hk : calls[k]? = some c) (hopen : e.isOpen = c.isOpen) :
    readers = BitVec.ofNat 64 ((calls.set k e).countP Call.isOpen) := by
  rw [countP_set_same hk hopen]
  exact h.count

/-- A step of a call; one that goes on to invoke its callback has waited for the sections. -/
theorem move (hk : calls[k]? = some c) (hc : c ≠ .closed)
    (hsection : c.isSection = true → e.isSection = true)
    (he : ∀ n head, e = .invoking n head → GraceOver links calls n)
    (hcount : readers' = BitVec.ofNat 64 ((calls.set k e).countP Call.isOpen)) :
    Grace readers' (calls.set k e) links invocations where
  count := hcount
  sections link hlink j hj := by
    rcases h.sections link hlink j hj with ⟨d, hd, hd'⟩
    by_cases hjk : j = k
    · subst hjk
      rw [hk, Option.some.injEq] at hd
      exact ⟨e, (getElem?_set_iff hk).mpr (.inl ⟨rfl, rfl⟩), hsection (hd ▸ hd')⟩
    · exact ⟨d, (getElem?_set_iff hk).mpr (.inr ⟨hjk, hd⟩), hd'⟩
  waited i m head hi := by
    rcases (getElem?_set_iff hk).mp hi with ⟨_, heq⟩ | ⟨_, hi⟩
    · exact (he m head heq.symm).move hk hc
    · exact (h.waited i m head hi).move hk hc
  invoked := h.invoked

/-- A step of a call that is not a section, and does not go on to invoke a callback. -/
theorem move_other (hk : calls[k]? = some c) (hc : c.isSection = false) (he : e.isOpen = false)
    (hne : ∀ n head, e ≠ .invoking n head) :
    Grace readers (calls.set k e) links invocations := by
  have hopen : c.isOpen = false := (Bool.or_eq_false_iff.mp hc).1
  refine h.move hk ?_ ?_ (fun n head heq => absurd heq (hne n head))
    (h.count_set hk (he.trans hopen.symm))
  · rintro rfl
    exact absurd hc (by decide)
  · rw [hc]
    simp

/-- A head is linked while some sections are open. -/
theorem link (head func : BitVec 64) :
    Grace readers calls (links ++ [⟨head, func, openSections calls⟩]) invocations where
  count := h.count
  sections link hlink j hj := by
    rcases mem_append.mp hlink with hlink | hlink
    · exact h.sections link hlink j hj
    · rw [mem_singleton.mp hlink] at hj
      rcases mem_openSections.mp hj with ⟨c, hc, hopen⟩
      exact ⟨c, hc, by simp [Call.isSection, hopen]⟩
  waited k n a hk := by
    rcases h.waited k n a hk with ⟨link, hlink, hclosed⟩
    exact ⟨link, getElem?_concat_iff.mpr (.inl hlink), hclosed⟩
  invoked r hr := by
    rcases h.invoked r hr with ⟨link, hlink, hclosed⟩
    exact ⟨link, getElem?_concat_iff.mpr (.inl hlink), hclosed⟩

/-- A callback is invoked after its grace period. -/
theorem invoke {head : BitVec 64} (hk : calls[k]? = some (.invoking n head)) (func : BitVec 64) :
    Grace readers calls links (invocations ++ [⟨n, head, func, openSections calls⟩]) where
  count := h.count
  sections := h.sections
  waited := h.waited
  invoked r hr := by
    rcases mem_append.mp hr with hr | hr
    · exact h.invoked r hr
    · rw [mem_singleton.mp hr]
      rcases h.waited k n head hk with ⟨link, hlink, hclosed⟩
      refine ⟨link, hlink, fun j hj hmem => ?_⟩
      rcases mem_openSections.mp hmem with ⟨c, hc, hopen⟩
      rw [hclosed j hj, Option.some.injEq] at hc
      rw [← hc] at hopen
      exact absurd hopen (by decide)

/-- A counter that reads 0 says that no section is open. -/
theorem none_open (hfew : calls.countP Call.isOpen < 2 ^ 64) (hzero : readers = 0#64)
    (hj : calls[j]? = some c) :
    c.isOpen = false := by
  have hnat := congrArg BitVec.toNat (h.count.symm.trans hzero)
  rw [toNat_ofNat, Nat.mod_eq_of_lt hfew, toNat_ofNat, Nat.zero_mod] at hnat
  by_contra hopen
  rw [Bool.not_eq_false] at hopen
  have hpos := countP_pos_iff.mpr ⟨c, mem_of_getElem? hj, hopen⟩
  omega

/-- So `synchronize_rcu` returns after the sections that were open before it. -/
theorem graceOver (hfew : calls.countP Call.isOpen < 2 ^ 64) (hzero : readers = 0#64) {link : Link}
    (hlink : links[n]? = some link) : GraceOver links calls n := by
  refine ⟨link, hlink, fun j hj => ?_⟩
  rcases h.sections link (mem_of_getElem? hlink) j hj with ⟨c, hc, hsection⟩
  rw [Call.isSection, h.none_open hfew hzero hc, Bool.false_or, decide_eq_true_eq] at hsection
  rw [hc, hsection]

end

variable {y y' : RcuSystem} {list : List (BitVec 64)} {place : ℕ → ItemPlace} {op : RcuOp}

theorem step (h : Grace y.rcu.readers y.calls y.links y.invocations) (ht : Tracked y list place)
    (hfew : y.calls.countP Call.isOpen < 2 ^ 64) (hstep : Transition y op y') :
    Grace y'.rcu.readers y'.calls y'.links y'.invocations := by
  cases hstep with
  | opens =>
    refine h.begin (by simp) ?_
    rw [countP_concat, rcuReadLock, h.count]
    exact (ofNat_add ..).symm
  | refuses _ => exact h.begin_other (by simp) rfl
  | prepares _ _ => exact h.begin_other (by simp) rfl
  | processes => exact h.begin_other (by simp) rfl
  | synchronizes => exact h.begin_other (by simp) rfl
  | abandons hk hzero => exact absurd (h.none_open hfew hzero hk) (by decide)
  | unlocks hk _ =>
    exact h.move hk (by simp) (fun _ => rfl) (by simp) (h.count_set hk rfl)
  | @closes k hk =>
    refine h.move hk (by simp) (fun _ => rfl) (by simp) ?_
    have hcount : (y.calls.set k .closed).countP Call.isOpen + 1 =
        y.calls.countP Call.isOpen + 0 := countP_set_add Call.isOpen hk
    rw [rcuReadUnlockSub, h.count, ← Nat.add_zero (y.calls.countP Call.isOpen), ← hcount,
      ofNat_add, add_sub_cancel]
  | links hk =>
    rw [show (callRcuLocked y.rcu _).readers = y.rcu.readers from callRcuLocked_readers ..]
    exact (h.link _ _).move_other hk rfl rfl (by simp)
  | @empty k blockIfEmpty hk _ =>
    refine h.move_other hk rfl ?_ ?_ <;> cases blockIfEmpty <;> simp [Call.isOpen]
  | dequeues hk hdequeue =>
    rw [(rcuDequeueLocked_spec ht.callbacks hdequeue).readers]
    exact h.move_other hk rfl rfl (by simp)
  | waits _ _ => exact h
  | @passes k callback hk hzero =>
    cases callback with
    | none => exact h.move_other hk rfl rfl (by simp [Call.synchronized])
    | some p =>
      rcases p with ⟨n, head⟩
      rcases ht.link_of_dequeued (ht.handout.own k n head ((shows_iff hk).mpr rfl)) with
        ⟨link, hlink, _⟩
      refine h.move hk (by simp) (fun hsection => ?_) ?_ (h.count_set hk rfl)
      · exact absurd hsection (by simp [Call.isSection, Call.isOpen])
      · rintro m a heq
        simp only [Call.synchronized, Call.invoking.injEq] at heq
        rw [← heq.1]
        exact h.graceOver hfew hzero hlink
  | invokes hk => exact (h.invoke hk _).move_other hk rfl rfl (by simp)
  | completes hk => exact h.move_other hk rfl rfl (by simp)

end Grace

/-! ## Grace periods in every run -/

/-- No callback was invoked while a section was open that was open when its head was linked. -/
def GraceRespected (y : RcuSystem) : Prop :=
  ∀ r ∈ y.invocations, ∀ link, y.links[r.n]? = some link → ∀ j ∈ link.openAt, j ∉ r.openAt

/-- Fewer than 2^64 sections are open. -/
def FewReaders (y : RcuSystem) : Prop := y.calls.countP Call.isOpen < 2 ^ 64

instance (y : RcuSystem) : Decidable (FewReaders y) := by
  unfold FewReaders
  infer_instance

theorem grace_run {s : RcuState} {ops : List RcuOp} {y : RcuSystem}
    (hrun : ops.foldlM RcuSystem.step (RcuSystem.start s) = some y)
    (hfew : EachStep RcuSystem.step (fun y _ => FewReaders y) (RcuSystem.start s) ops) :
    GraceRespected y := by
  have hinv : (∃ list place, Tracked y list place) ∧
      Grace y.rcu.readers y.calls y.links y.invocations := by
    refine run_invariant_of (P := fun y => (∃ list place, Tracked y list place) ∧
      Grace y.rcu.readers y.calls y.links y.invocations) ?_ ⟨⟨_, _, .start s⟩, ?_⟩ hfew hrun
    · rintro y₁ op y₂ ⟨⟨list, place, ht⟩, h⟩ hfew₁ hstep
      have htrans := Transition.of_step hstep
      exact ⟨ht.step htrans, h.step ht hfew₁ htrans⟩
    · exact ⟨rfl, by simp [RcuSystem.start], by simp [RcuSystem.start],
        by simp [RcuSystem.start]⟩
  intro r hr link hlink j hj
  rcases hinv.2.invoked r hr with ⟨link', hlink', hnot⟩
  rw [hlink, Option.some.injEq] at hlink'
  exact hnot j (hlink' ▸ hj)

/-- In every run the callbacks are invoked once each, with their own heads and in order; and while
fewer than 2^64 sections are open at once, each one after its grace period. -/
theorem rcu_run_grace_periods (s : RcuState) (ops : List RcuOp) (y : RcuSystem)
    (hrun : ops.foldlM RcuSystem.step (RcuSystem.start s) = some y) :
    (∃ l, CallbacksInOrder y l) ∧
      (EachStep RcuSystem.step (fun y _ => FewReaders y) (RcuSystem.start s) ops →
        GraceRespected y) := by
  rcases tracked_run hrun with ⟨list, place, h⟩
  exact ⟨⟨list, h.inOrder⟩, grace_run hrun⟩

/-- The state before `rcu_init`. -/
def staleRcu : RcuState := ⟨5#64, 6#64, 7#64, 8#64, 9#64, fun _ => 0#64, fun _ => 0#64⟩

/-- A head is linked while a section is open; its callback waits for the section. -/
def reclaimAfterReader : List RcuOp :=
  [.readLock, .callRcu 8#64 16#64, .resume 1, .processCallbacks false, .resume 2, .resume 2,
    .resume 0, .resume 0, .resume 2, .resume 2, .resume 2]

theorem rcu_run_grace_periods_one_reader :
    ∃ y, reclaimAfterReader.foldlM RcuSystem.step (.start staleRcu) = some y ∧
      y.links = [⟨8#64, 16#64, [0]⟩] ∧ y.invocations = [⟨0, 8#64, 16#64, []⟩] ∧
      (∃ l, CallbacksInOrder y l) ∧ GraceRespected y := by
  refine ⟨_, rfl, rfl, rfl, ?_⟩
  have h := rcu_run_grace_periods staleRcu reclaimAfterReader _ rfl
  exact ⟨h.1, h.2 (by decide +kernel)⟩

/-! ## The reader counter wraps -/

theorem readLocks_run (y : RcuSystem) (n : ℕ) :
    (replicate n RcuOp.readLock).foldlM RcuSystem.step y =
      some { y with
        rcu := { y.rcu with readers := y.rcu.readers + BitVec.ofNat 64 n }
        calls := y.calls ++ replicate n .reading } := by
  induction n generalizing y with
  | zero => simp
  | succ n ih =>
    rw [List.replicate_succ, foldlM_cons, RcuSystem.step, Option.bind_eq_bind,
      Option.bind_some, ih]
    simp [rcuReadLock, List.replicate_succ, ofNat_add, BitVec.add_assoc,
      BitVec.add_comm 1#64]

/-- A head is linked and its callback processed after `n` sections have been opened. -/
def reclaimAfterReaders (n : ℕ) : List RcuOp :=
  replicate n .readLock ++
    [.callRcu 8#64 16#64, .resume n, .processCallbacks false, .resume (n + 1), .resume (n + 1),
      .resume (n + 1)]

theorem zero_mem_openSections {n : ℕ} (hn : 0 < n) (l : List Call) :
    0 ∈ openSections (replicate n .reading ++ l) := by
  refine mem_openSections.mpr ⟨.reading, ?_, rfl⟩
  rw [getElem?_append_left (by rw [length_replicate]; exact hn), getElem?_replicate,
    if_pos hn]

/-- When the counter has wrapped to 0, `synchronize_rcu` does not wait for any of the sections. -/
theorem reclaimAfterReaders_run {n : ℕ} (hn : 0 < n) (hwrap : BitVec.ofNat 64 n = 0#64) :
    ∃ y, (reclaimAfterReaders n).foldlM RcuSystem.step (.start staleRcu) = some y ∧
      ¬ GraceRespected y := by
  rw [reclaimAfterReaders, foldlM_append, readLocks_run, Option.bind_eq_bind,
    Option.bind_some]
  simp only [RcuSystem.start, staleRcu, rcuInit, hwrap, nil_append]
  simp [RcuSystem.step, RcuSystem.resumeCall, callRcuPrepare, callRcuLocked, rcuDequeueLocked,
    Call.synchronized, getElem?_append]
  intro h
  exact h _ (mem_singleton_self _) _ rfl 0 (zero_mem_openSections hn _)
    (zero_mem_openSections hn _)

/-- With 2^64 sections open at once, a callback is invoked while they are all open. -/
theorem callback_invoked_in_open_section :
    ∃ y, (reclaimAfterReaders (2 ^ 64)).foldlM RcuSystem.step (.start staleRcu) = some y ∧
      ¬ GraceRespected y :=
  reclaimAfterReaders_run (by decide) (by decide)

end GnuOS.Rcu
