import GnuOS.Pmm.Refinement
import GnuOS.Vmm.Mapping

/-!
# Where the frames go

The tables that a walk creates and the frames of the mapped pages come from one allocator.  `Drawn`
says what a walk does to the allocator and to the set of tables: each frame it takes becomes a
table.  `Stock` says which frames are in use beside the tables: they are distinct, none is a table,
and none of them, nor a table, is free in the page allocator.
-/

namespace GnuOS.Vmm

open GnuOS.Lib List

/-! ## Frames drawn by a walk -/

section Drawn

variable {σ : Type} {A : PageAllocator σ}

/-- From the allocator `a` and the tables `T`, requests lead to the given allocator and tables:
what a request returns becomes a table, or the request failed. -/
inductive Drawn (A : PageAllocator σ) (a : σ) (T : BitVec 64 → Prop) :
    σ → (BitVec 64 → Prop) → Prop
  | refl : Drawn A a T a T
  | failed {a' : σ} {T' : BitVec 64 → Prop} (h : Drawn A a T a' T')
    (hnull : (A.allocPage a').1 = 0#64) : Drawn A a T (A.allocPage a').2 T'
  | table {a' : σ} {T' : BitVec 64 → Prop} (h : Drawn A a T a' T')
    (hgiven : (A.allocPage a').1 ≠ 0#64) :
    Drawn A a T (A.allocPage a').2 fun t => T' t ∨ t = (A.allocPage a').1

theorem Drawn.trans {a₁ a₂ a₃ : σ} {T₁ T₂ T₃ : BitVec 64 → Prop} (h : Drawn A a₁ T₁ a₂ T₂)
    (h' : Drawn A a₂ T₂ a₃ T₃) : Drawn A a₁ T₁ a₃ T₃ := by
  induction h' with
  | refl => exact h
  | failed _ hnull ih => exact ih.failed hnull
  | table _ hgiven ih => exact ih.table hgiven

/-- The tables of a state. -/
def VmmState.tables (s : VmmState σ) : BitVec 64 → Prop := IsTable childTable s.mem s.pml4

/-- The globals that only the functions of the kernel heap write. -/
def VmmState.heap (s : VmmState σ) : KernelLayout × BitVec 64 × BitVec 64 :=
  (s.kernelLayout, s.kernelHeapNext, s.kernelHeapLimit)

/-- The walk from `s` to `s'` uses the frames it draws for tables, and does not touch the heap. -/
structure Draws (A : PageAllocator σ) (s s' : VmmState σ) : Prop where
  drawn : Drawn A s.pmm s.tables s'.pmm s'.tables
  heap : s'.heap = s.heap

variable {s s' : VmmState σ} {path : List (Fin 512)} {t : BitVec 64} {i : Fin 512}

theorem Draws.refl : Draws A s s := ⟨Drawn.refl, rfl⟩

theorem Draws.trans {s₁ s₂ s₃ : VmmState σ} (h : Draws A s₁ s₂) (h' : Draws A s₂ s₃) :
    Draws A s₁ s₃ :=
  ⟨h.drawn.trans h'.drawn, h'.heap.trans h.heap⟩

theorem Draws.null (hnull : (A.allocPage s.pmm).1 = 0#64) :
    Draws A s { s with pmm := (A.allocPage s.pmm).2 } :=
  ⟨Drawn.refl.failed hnull, rfl⟩

theorem Links.draws {mem' : Tables} {g : BitVec 64} (h : Links A s mem' path t i g)
    (hwf : WellFormed A s) : Draws A s { s with mem := mem', pmm := (A.allocPage s.pmm).2 } := by
  have htables : VmmState.tables { s with mem := mem', pmm := (A.allocPage s.pmm).2 } =
      fun r => s.tables r ∨ r = (A.allocPage s.pmm).1 := by
    funext r
    exact propext ((h.addsChild hwf).isTable_iff hwf.unshared r)
  refine ⟨?_, rfl⟩
  rw [htables]
  exact Drawn.refl.table h.given

theorem draws_write_leaf (hwf : WellFormed A s) (ht : tableAt s path = some t)
    (hlen : path.length = 3) (e : BitVec 64) :
    Draws A s { s with mem := write s.mem t i e } := by
  have htables : VmmState.tables { s with mem := write s.mem t i e } = s.tables := by
    funext r
    apply propext
    apply exists_congr
    intro ρ
    rw [show descend childTable (write s.mem t i e) 0 s.pml4 ρ = tableAt s ρ from
      tableAt_write_leaf hwf ht hlen e ρ]
    rfl
  refine ⟨?_, rfl⟩
  rw [htables]
  exact Drawn.refl

/-- The frames that a call draws become tables: mapping a page takes its frame from the caller. -/
theorem Steps.draws (h : Steps A s s') : Draws A s s' := by
  induction h with
  | refl => exact .refl
  | failed _ hnull ih => exact ih.trans (.null hnull)
  | link _ hwf hlinks ih => exact ih.trans (hlinks.draws hwf)
  | leaf _ hwf ht hlen e ih => exact ih.trans (draws_write_leaf hwf ht hlen e)

end Drawn

/-! ## Frames in use -/

section Stock

open GnuOS.Pmm

variable {a a' : PmmState} {T T' : BitVec 64 → Prop} {used used' : List (BitVec 64)}
  {p q : BitVec 64}

/-- The address of a page that is free in the page allocator. -/
def IsFree (a : PmmState) (p : BitVec 64) : Prop :=
  ∃ x, x < a.totalPages ∧ pageStatus a x = .free ∧ p = pageAddr a x

theorem IsFree.ne_zero (hG : Good a) (h : IsFree a p) : p ≠ 0#64 := by
  rcases h with ⟨x, hx, hst, rfl⟩
  exact pageAddr_ne_zero hG.window hx (hG.ne_zero hx (by rw [hst]; decide))

theorem pmmAllocPage_null (hG : Good a) (hnull : (pmmAllocPage a).1 = 0#64) :
    (pmmAllocPage a).2 = a := by
  rcases pmmAllocPage_spec hG.inv with ⟨hrun, _⟩ | ⟨x, a', hrun, hx, hst, _⟩
  · rw [hrun]
  · rw [hrun] at hnull
    exact absurd hnull (IsFree.ne_zero hG ⟨x, hx, hst, rfl⟩)

/-- The address of a page with the status. -/
def HasStatus (a : PmmState) (st : BlockState) (p : BitVec 64) : Prop :=
  ∃ x, x < a.totalPages ∧ pageStatus a x = st ∧ p = pageAddr a x

/-- The status of one page changes. -/
theorem hasStatus_changes {x : ℕ} {st st' : BlockState} (hG : Good a) (hch : Changes a a' x st)
    (hx : x < a.totalPages) :
    HasStatus a' st' q ↔ if q = pageAddr a x then st' = st else HasStatus a st' q := by
  have haddr : ∀ y, pageAddr a' y = pageAddr a y := fun y => by rw [pageAddr, hch.base, pageAddr]
  simp only [HasStatus, haddr, hch.total]
  by_cases hq : q = pageAddr a x
  · rw [if_pos hq]
    constructor
    · rintro ⟨y, hy, hst, rfl⟩
      rw [hch.status y hy, if_pos (pageAddr_injective hG.window hy hx hq)] at hst
      exact hst.symm
    · intro hst
      exact ⟨x, hx, by rw [hch.status x hx, if_pos rfl, hst], hq⟩
  · rw [if_neg hq]
    have hother : ∀ y, y < a.totalPages → q = pageAddr a y → pageStatus a' y = pageStatus a y := by
      intro y hy hqy
      rw [hch.status y hy, if_neg fun heq => hq (by rw [hqy, heq])]
    exact exists_congr fun y => and_congr_right fun hy => and_congr_left fun hqy => by
      rw [hother y hy hqy]

/-- A page that is handed out was free, and is the only one that is not free any more. -/
theorem pmmAllocPage_isFree (hG : Good a) (hgiven : (pmmAllocPage a).1 ≠ 0#64) :
    Good (pmmAllocPage a).2 ∧ IsFree a (pmmAllocPage a).1 ∧
      ∀ q, IsFree (pmmAllocPage a).2 q ↔ IsFree a q ∧ q ≠ (pmmAllocPage a).1 := by
  rcases pmmAllocPage_spec hG.inv with ⟨hrun, _⟩ | ⟨x, a', hrun, hx, hst, hch⟩
  · rw [hrun] at hgiven
    exact absurd rfl hgiven
  rw [hrun]
  refine ⟨hG.changes hch (hG.ne_zero hx (by rw [hst]; decide)), ⟨x, hx, hst, rfl⟩, fun q => ?_⟩
  refine (hasStatus_changes hG hch hx).trans ?_
  split
  · next heq => exact iff_of_false (by decide) fun h => h.2 heq
  · next hne => exact (and_iff_left hne).symm

/-- At most the page that is given back becomes free. -/
theorem pmmFreePage_isFree (hG : Good a) (p : BitVec 64) :
    Good (pmmFreePage a p) ∧ ∀ q, IsFree (pmmFreePage a p) q → IsFree a q ∨ q = p := by
  refine ⟨(good_exec hG (.freePage p)).1, ?_⟩
  by_cases hhit : HasStatus a .allocated p
  · obtain ⟨x, hx, hst, rfl⟩ := hhit
    intro q hfree
    have hcases := (hasStatus_changes hG (pmmFreePage_hit hG hx hst) hx).mp hfree
    split at hcases
    · next heq => exact .inr heq
    · exact .inl hcases
  · have hmiss : pmmFreePage a p = a :=
      pmmFreePage_miss hG fun x hx hst heq => hhit ⟨x, hx, hst, heq⟩
    rw [hmiss]
    exact fun q hq => .inl hq

/-- The frames of `used` are in use, the tables are `T`: neither is free, and nothing is used
twice. -/
structure Stock (a : PmmState) (T : BitVec 64 → Prop) (used : List (BitVec 64)) : Prop where
  good : Good a
  free : ∀ p, IsFree a p → IsFrame p ∧ ¬ T p ∧ p ∉ used
  frame : ∀ p ∈ used, IsFrame p
  noTable : ∀ p ∈ used, ¬ T p
  nodup : used.Nodup

namespace Stock

section

variable (h : Stock a T used)

include h

theorem perm (hperm : used.Perm used') : Stock a T used' where
  good := h.good
  free p hp := by
    rw [← hperm.mem_iff]
    exact h.free p hp
  frame p hp := h.frame p (hperm.mem_iff.mpr hp)
  noTable p hp := h.noTable p (hperm.mem_iff.mpr hp)
  nodup := hperm.nodup_iff.mp h.nodup

/-- A request that fails changes nothing. -/
theorem null (hnull : (pmmAllocPage a).1 = 0#64) :
    Stock (pmmAllocPage a).2 T used := by
  rw [pmmAllocPage_null h.good hnull]
  exact h

/-- A frame is taken into use. -/
theorem take (hgiven : (pmmAllocPage a).1 ≠ 0#64) :
    Stock (pmmAllocPage a).2 T ((pmmAllocPage a).1 :: used) := by
  obtain ⟨hgood, hfree, hiff⟩ := pmmAllocPage_isFree h.good hgiven
  obtain ⟨hframe, htable, hused⟩ := h.free _ hfree
  refine ⟨hgood, fun q hq => ?_, ?_, ?_, nodup_cons.mpr ⟨hused, h.nodup⟩⟩
  · obtain ⟨hq, hne⟩ := (hiff q).mp hq
    obtain ⟨hframe', htable', hused'⟩ := h.free q hq
    exact ⟨hframe', htable', fun hmem => (mem_cons.mp hmem).elim hne hused'⟩
  · exact forall_mem_cons.mpr ⟨hframe, h.frame⟩
  · exact forall_mem_cons.mpr ⟨htable, h.noTable⟩

/-- A request of someone else. -/
theorem request : Stock (pmmAllocPage a).2 T used := by
  by_cases hnull : (pmmAllocPage a).1 = 0#64
  · exact h.null hnull
  · obtain ⟨hgood, _, hiff⟩ := pmmAllocPage_isFree h.good hnull
    exact ⟨hgood, fun q hq => h.free q ((hiff q).mp hq).1, h.frame, h.noTable, h.nodup⟩

/-- A frame becomes a table. -/
theorem table (hgiven : (pmmAllocPage a).1 ≠ 0#64) :
    Stock (pmmAllocPage a).2 (fun t => T t ∨ t = (pmmAllocPage a).1) used := by
  obtain ⟨hgood, hfree, hiff⟩ := pmmAllocPage_isFree h.good hgiven
  refine ⟨hgood, fun q hq => ?_, h.frame, fun q hq htable => ?_, h.nodup⟩
  · obtain ⟨hq, hne⟩ := (hiff q).mp hq
    obtain ⟨hframe', htable', hused'⟩ := h.free q hq
    exact ⟨hframe', fun ht => ht.elim htable' hne, hused'⟩
  · rcases htable with htable | rfl
    · exact h.noTable q hq htable
    · exact (h.free _ hfree).2.2 hq

theorem drawn (hdrawn : Drawn pmmAllocator a T a' T') :
    Stock a' T' used := by
  induction hdrawn with
  | refl => exact h
  | failed _ hnull ih => exact ih.null hnull
  | table _ hgiven ih => exact ih.table hgiven

end

/-- A frame is given back. -/
theorem giveBack (h : Stock a T (p :: used)) : Stock (pmmFreePage a p) T used := by
  obtain ⟨hgood, hfree⟩ := pmmFreePage_isFree h.good p
  have hnodup := nodup_cons.mp h.nodup
  have hp : p ∈ p :: used := mem_cons_self
  refine ⟨hgood, fun q hq => ?_, ?_, ?_, hnodup.2⟩
  · rcases hfree q hq with hq | rfl
    · obtain ⟨hframe, htable, hused⟩ := h.free q hq
      exact ⟨hframe, htable, fun hmem => hused (mem_cons_of_mem p hmem)⟩
    · exact ⟨h.frame q hp, h.noTable q hp, hnodup.1⟩
  · exact fun q hq => h.frame q (mem_cons_of_mem p hq)
  · exact fun q hq => h.noTable q (mem_cons_of_mem p hq)

/-- The page allocator hands out frames that are neither tables nor in use. -/
theorem supplies (h : Stock a T used) : Supplies pmmAllocator a T where
  frame n hn := by
    rcases answer_pmm n h.good.inv with hnull | ⟨x, hx, hst, haddr⟩
    · exact absurd hnull hn
    · obtain ⟨hframe, htable, _⟩ := h.free _ ⟨x, hx, hst, haddr⟩
      exact ⟨hframe, htable⟩
  distinct m n hmn hn := answer_pmm_distinct m n h.good.inv h.good.window hmn hn

end Stock

/-- Every free page is handed out by some later request. -/
theorem IsFree.answer (hG : Good a) (h : IsFree a p) : ∃ n, answer pmmAllocator a n = p := by
  induction hcard : (pagesWith a .free).card generalizing a with
  | zero =>
    rcases h with ⟨x, hx, hst, _⟩
    have hmem : x ∈ pagesWith a .free := mem_pagesWith.mpr ⟨hx, hst⟩
    rw [Finset.card_eq_zero.mp hcard] at hmem
    simp at hmem
  | succ n ih =>
    rcases pmmAllocPage_spec hG.inv with ⟨_, hnone⟩ | ⟨x, a', hrun, hx, hst, hch⟩
    · rcases h with ⟨y, hy, hfree, _⟩
      exact absurd hfree (hnone y hy)
    · have hgiven : (pmmAllocPage a).1 ≠ 0#64 := by
        rw [hrun]
        exact IsFree.ne_zero hG ⟨x, hx, hst, rfl⟩
      obtain ⟨hgood, _, hiff⟩ := pmmAllocPage_isFree hG hgiven
      by_cases hp : p = (pmmAllocPage a).1
      · exact ⟨0, hp.symm⟩
      · have herase : pagesWith (pmmAllocPage a).2 .free = (pagesWith a .free).erase x := by
          ext y
          rw [hrun, hch.mem_iff, Finset.mem_erase, mem_pagesWith]
          by_cases hyx : y = x
          · simp [hyx]
          · simp [hyx]
        have hlt : ((pagesWith a .free).erase x).card = n := by
          rw [Finset.card_erase_of_mem (mem_pagesWith.mpr ⟨hx, hst⟩), hcard]
          rfl
        rw [← herase] at hlt
        rcases ih hgood ((hiff p).mpr ⟨h, hp⟩) hlt with ⟨m, hm⟩
        exact ⟨m + 1, hm⟩

/-- In a well-formed state no table is free. -/
theorem WellFormed.stock {s : VmmState PmmState} (h : WellFormed pmmAllocator s)
    (hG : Good s.pmm) : Stock s.pmm s.tables [] := by
  refine ⟨hG, ?_, by simp, by simp, nodup_nil⟩
  intro p hp
  rcases hp.answer hG with ⟨n, rfl⟩
  have hframe := h.supply.frame n (hp.ne_zero hG)
  exact ⟨hframe.1, hframe.2, not_mem_nil⟩

end Stock

end GnuOS.Vmm
