import GnuOS.Vmm.Boot

/-!
# Mapping and unmapping a page

The frame law of `vmm_map_page` and `vmm_unmap_page`.  Each step of the walk keeps every mapping,
whether it finds a table, creates one, splits a 2 MiB entry or fails (`Walked`); the final store
then changes the mapping of one page.
-/

namespace GnuOS.Vmm

open GnuOS.Lib

variable {σ : Type} {A : PageAllocator σ} {s s' : VmmState σ}

/-! ## What a call does to memory -/

/-- The changes of memory and of the allocator that `vmm.c` makes: a request that fails, a new
table linked into the tree, and an entry of a page table stored. -/
inductive Steps (A : PageAllocator σ) (s : VmmState σ) : VmmState σ → Prop
  | refl : Steps A s s
  | failed {s₁ : VmmState σ} (h : Steps A s s₁) (hnull : (A.allocPage s₁.pmm).1 = 0#64) :
    Steps A s { s₁ with pmm := (A.allocPage s₁.pmm).2 }
  | link {s₁ : VmmState σ} {mem' : Tables} {path : List (Fin 512)} {t : BitVec 64} {i : Fin 512}
    {g : BitVec 64} (h : Steps A s s₁) (hwf : WellFormed A s₁)
    (hlinks : Links A s₁ mem' path t i g) :
    Steps A s { s₁ with mem := mem', pmm := (A.allocPage s₁.pmm).2 }
  | leaf {s₁ : VmmState σ} {path : List (Fin 512)} {t : BitVec 64} {i : Fin 512}
    (h : Steps A s s₁) (hwf : WellFormed A s₁) (ht : tableAt s₁ path = some t)
    (hlen : path.length = 3) (e : BitVec 64) :
    Steps A s { s₁ with mem := write s₁.mem t i e }

theorem Steps.trans {s₁ s₂ s₃ : VmmState σ} (h : Steps A s₁ s₂) (h' : Steps A s₂ s₃) :
    Steps A s₁ s₃ := by
  induction h' with
  | refl => exact h
  | failed _ hnull ih => exact ih.failed hnull
  | link _ hwf hlinks ih => exact ih.link hwf hlinks
  | leaf _ hwf ht hlen e ih => exact ih.leaf hwf ht hlen e

/-- The tables of `s` are tables of `s'`, and the entries that refer to them have not changed. -/
structure Keeps (s s' : VmmState σ) : Prop where
  pml4 : s'.pml4 = s.pml4
  tables : ∀ path t, tableAt s path = some t → tableAt s' path = some t
  links : ∀ path t i, tableAt s path = some t → childTable path.length (s.mem t i) ≠ none →
    s'.mem t i = s.mem t i

theorem Keeps.refl (s : VmmState σ) : Keeps s s := ⟨rfl, fun _ _ h => h, fun _ _ _ _ _ => rfl⟩

theorem Keeps.trans {s₁ s₂ s₃ : VmmState σ} (h : Keeps s₁ s₂) (h' : Keeps s₂ s₃) : Keeps s₁ s₃ where
  pml4 := h'.pml4.trans h.pml4
  tables path t ht := h'.tables path t (h.tables path t ht)
  links path t i ht hlink := by
    have hmem := h.links path t i ht hlink
    have hlink' : childTable path.length (s₂.mem t i) ≠ none := by
      rw [hmem]
      exact hlink
    exact (h'.links path t i (h.tables path t ht) hlink').trans hmem

theorem Links.keeps {mem' : Tables} {path : List (Fin 512)} {t : BitVec 64} {i : Fin 512}
    {g : BitVec 64} (h : Links A s mem' path t i g) (hwf : WellFormed A s) :
    Keeps s { s with mem := mem', pmm := (A.allocPage s.pmm).2 } where
  pml4 := rfl
  tables ρ r hr := ((h.addsChild hwf).descend_iff hwf.unshared ρ r).mpr (.inl hr)
  links ρ r j hr hlink := by
    apply (h.addsChild hwf).read_eq hwf.unshared hr
    -- the linked entry was vacant
    rintro ⟨rfl, rfl⟩
    have hrt : r = t := Option.some.inj (hr.symm.trans h.parent)
    rw [hrt] at hlink
    exact hlink h.vacant

theorem keeps_write_leaf {path : List (Fin 512)} {t : BitVec 64} {i : Fin 512}
    (hwf : WellFormed A s) (ht : tableAt s path = some t) (hlen : path.length = 3) (e : BitVec 64) :
    Keeps s { s with mem := write s.mem t i e } where
  pml4 := rfl
  tables ρ r hr := (tableAt_write_leaf hwf ht hlen e ρ).trans hr
  links ρ r j hr hlink := by
    apply write_of_ne
    apply Or.inl
    intro hrt
    have hρ : ρ = path := hwf.unshared ρ path t (hrt ▸ hr) ht
    exact hlink (childTable_leaf (by rw [hρ, hlen]) _)

theorem Steps.keeps (h : Steps A s s') : Keeps s s' := by
  induction h with
  | refl => exact Keeps.refl s
  | failed _ _ ih => exact ih.trans ⟨rfl, fun _ _ h => h, fun _ _ _ _ _ => rfl⟩
  | link _ hwf hlinks ih => exact ih.trans (hlinks.keeps hwf)
  | leaf _ hwf ht hlen e ih => exact ih.trans (keeps_write_leaf hwf ht hlen e)

/-! ## Steps of the walk -/

/-- What a step of the walk guarantees, from the state `s` to its result `r`: the mappings are
kept, and the table it returns is the one at the end of `path`. -/
structure Walked (A : PageAllocator σ) (s : VmmState σ) (path : List (Fin 512))
    (r : Option (BitVec 64) × VmmState σ) : Prop where
  wellFormed : WellFormed A r.2
  extend : Extends s r.2
  table : ∀ t, r.1 = some t → tableAt r.2 path = some t

/-- A step of the walk, with the changes of memory that it consists of. -/
structure Stepped (A : PageAllocator σ) (s : VmmState σ) (path : List (Fin 512))
    (r : Option (BitVec 64) × VmmState σ) : Prop extends Walked A s path r where
  steps : Steps A s r.2

section Steps

variable {path : List (Fin 512)} {t : BitVec 64} {i : Fin 512}

theorem stepped_none (hwf : WellFormed A s) : Stepped A s path (none, s) where
  wellFormed := hwf
  extend := Extends.refl s
  table t' ht' := by simp at ht'
  steps := .refl

theorem stepped_null (hwf : WellFormed A s) (hnull : (A.allocPage s.pmm).1 = 0#64) :
    Stepped A s path (none, { s with pmm := (A.allocPage s.pmm).2 }) where
  wellFormed := hwf.after_null
  extend := extends_pmm s _
  table t' ht' := by simp at ht'
  steps := Steps.refl.failed hnull

theorem Stepped.trans {r : Option (BitVec 64) × VmmState σ} (hext : Extends s s')
    (hsteps : Steps A s s') (h : Stepped A s' path r) : Stepped A s path r :=
  ⟨⟨h.wellFormed, hext.trans h.extend, h.table⟩, hsteps.trans h.steps⟩

/-! ### Creating a table -/

/-- The memory that `vmm_get_or_create_next_table` leaves after creating the table `f`. -/
def createdMem (s : VmmState σ) (f t : BitVec 64) (i : Fin 512) : Tables :=
  write (vmmZeroPage s.mem f) t i ((f &&& vmmPhysMask) ||| tableFlags)

theorem createdMem_new {f : BitVec 64} (hft : f ≠ t) (j : Fin 512) :
    createdMem s f t i f j &&& vmmPagePresent = 0#64 := by
  rw [createdMem, write_of_ne _ _ (.inl hft), vmmZeroPage, writeAll_self, BitVec.zero_and]

section Creating

variable (hwf : WellFormed A s) (ht : tableAt s path = some t) (hlen : path.length ≤ 2)

include hwf ht

/-- The frame that the next table is made in. -/
theorem frame_ne_table (hgiven : (A.allocPage s.pmm).1 ≠ 0#64) : (A.allocPage s.pmm).1 ≠ t := by
  intro heq
  exact (hwf.supply.first hgiven).2 ⟨path, heq ▸ ht⟩

include hlen

/-- An entry that is followed leaves the state as it is. -/
theorem stepped_of_present (hp : s.mem t i &&& vmmPagePresent ≠ 0#64)
    (hs : s.mem t i &&& vmmPageSize = 0#64) :
    Stepped A s (path ++ [i]) (some (vmmEntryToTable (s.mem t i)), s) where
  wellFormed := hwf
  extend := Extends.refl s
  table t' ht' := by
    rw [← Option.some.inj ht']
    exact tableAt_of_present ht hp (.inr ⟨hlen, hs⟩)
  steps := .refl

theorem links_created (hp : s.mem t i &&& vmmPagePresent = 0#64)
    (hgiven : (A.allocPage s.pmm).1 ≠ 0#64) :
    Links A s (createdMem s (A.allocPage s.pmm).1 t i) path t i tableFlags where
  parent := ht
  flags := linkFlags_table
  rootFlags _ := by decide
  given := hgiven
  vacant := childTable_of_not_present hp
  shallow := hlen
  entry := write_self _ _ _ _
  frame r j hr hrj := by
    rw [createdMem, write_of_ne _ _ hrj, vmmZeroPage, writeAll_of_ne _ _ hr]
  content := .inr fun j => createdMem_new (frame_ne_table hwf ht hgiven) j

/-- A new empty table maps nothing, and neither did the entry it is linked to. -/
theorem stepped_created (hp : s.mem t i &&& vmmPagePresent = 0#64)
    (hgiven : (A.allocPage s.pmm).1 ≠ 0#64) :
    Stepped A s (path ++ [i]) (some (A.allocPage s.pmm).1,
      { s with mem := createdMem s (A.allocPage s.pmm).1 t i, pmm := (A.allocPage s.pmm).2 }) := by
  have hlinks := links_created hwf ht hlen hp hgiven
  refine ⟨⟨hlinks.wellFormed hwf, hlinks.extends_of_query hwf ?_, ?_⟩, Steps.refl.link hwf hlinks⟩
  · intro x hx
    rcases pagePath_prefix hlen hx with ⟨j, rest, hpath⟩
    have hbefore : pagePath x = path ++ i :: j :: rest := by simp [hpath]
    rw [query_of_not_present hbefore ht hp]
    exact query_of_not_present hpath (hlinks.tableAt_new hwf)
      (createdMem_new (frame_ne_table hwf ht hgiven) j)
  · intro t' ht'
    rw [← Option.some.inj ht']
    exact hlinks.tableAt_new hwf

theorem vmmGetOrCreateNextTable_stepped :
    Stepped A s (path ++ [i]) (vmmGetOrCreateNextTable A s t i) := by
  unfold vmmGetOrCreateNextTable
  by_cases hp : s.mem t i &&& vmmPagePresent = 0#64
  · simp only [hp, ne_eq, not_true, if_false]
    by_cases hgiven : (A.allocPage s.pmm).1 = 0#64
    · simp only [hgiven, if_true]
      exact stepped_null hwf hgiven
    · simp only [hgiven, if_false, BitVec.or_assoc]
      exact stepped_created hwf ht hlen hp hgiven
  · simp only [hp, ne_eq, not_false_eq_true, if_true]
    by_cases hs : s.mem t i &&& vmmPageSize = 0#64
    · simp only [hs, not_true, if_false]
      exact stepped_of_present hwf ht hlen hp hs
    · simp only [hs, not_false_eq_true, if_true]
      exact stepped_none hwf

end Creating

/-! ### Splitting a 2 MiB entry -/

/-- Entry `j` of the table that replaces the 2 MiB entry `pde`. -/
def splitEntry (pde : BitVec 64) (j : Fin 512) : BitVec 64 :=
  ((pde &&& vmmHuge2mBaseMask) + BitVec.ofNat 64 j * mmPageSize &&& vmmPhysMask) ||| leafFlags pde

/-- The memory that `vmm_split_large_pd_entry` leaves after splitting into the table `f`. -/
def splitMem (s : VmmState σ) (f t : BitVec 64) (i : Fin 512) : Tables :=
  write (writeAll (vmmZeroPage s.mem f) f (splitEntry (s.mem t i))) t i
    ((f &&& vmmPhysMask) ||| splitFlags (s.mem t i))

theorem splitMem_new {f : BitVec 64} (hft : f ≠ t) (j : Fin 512) :
    splitMem s f t i f j = splitEntry (s.mem t i) j := by
  rw [splitMem, write_of_ne _ _ (.inl hft), writeAll_self]

theorem links_split (ht : tableAt s path = some t) (hlen : path.length = 2)
    (hs : s.mem t i &&& vmmPageSize ≠ 0#64) (hgiven : (A.allocPage s.pmm).1 ≠ 0#64) :
    Links A s (splitMem s (A.allocPage s.pmm).1 t i) path t i (splitFlags (s.mem t i)) where
  parent := ht
  flags := linkFlags_split _
  rootFlags hroot := by simp [hroot] at hlen
  given := hgiven
  vacant := childTable_of_large (by omega) hs
  shallow := by omega
  entry := write_self _ _ _ _
  frame r j hr hrj := by
    rw [splitMem, write_of_ne _ _ hrj, writeAll_of_ne _ _ hr, vmmZeroPage, writeAll_of_ne _ _ hr]
  content := .inl hlen

/-- What the small entry of `x` says after a split. -/
theorem leafMapping_splitEntry (pde x : BitVec 64) :
    leafMapping (splitEntry pde (vmmPtIndex x)) x =
      some ((pde &&& vmmHuge2mBaseMask) ||| (x &&& ((1#64 <<< 21) - 1#64)),
        vmmEntryToMapFlags pde) := by
  rw [leafMapping, splitEntry, if_neg (leaf_present _ _), leaf_phys, leaf_mapFlags, split_phys,
    vmmEntryToMapFlags_eq]

/-- The query after a split, whatever the entry was. -/
theorem query_after_split (hun : Unshared childTable s.mem s.pml4)
    (hframe : IsFrame (A.allocPage s.pmm).1)
    (hfresh : ¬ IsTable childTable s.mem s.pml4 (A.allocPage s.pmm).1) {x pd : BitVec 64}
    (h0 : s.pml4 ≠ 0#64) (hpd : tableAt s [vmmPml4Index x, vmmPdptIndex x] = some pd)
    (hs : s.mem pd (vmmPdIndex x) &&& vmmPageSize ≠ 0#64)
    (hgiven : (A.allocPage s.pmm).1 ≠ 0#64) :
    vmmQueryMapping { s with
        mem := splitMem s (A.allocPage s.pmm).1 pd (vmmPdIndex x),
        pmm := (A.allocPage s.pmm).2 } x =
      some ((s.mem pd (vmmPdIndex x) &&& vmmHuge2mBaseMask) ||| (x &&& ((1#64 <<< 21) - 1#64)),
        vmmEntryToMapFlags (s.mem pd (vmmPdIndex x))) := by
  have htable := (links_split hpd rfl hs hgiven).tableAt_new_of_fresh hun hframe hfresh
  have hne : (A.allocPage s.pmm).1 ≠ pd := by
    intro heq
    rw [heq] at hfresh
    exact hfresh ⟨_, hpd⟩
  have hnew := splitMem_new (s := s) (i := vmmPdIndex x) hne (vmmPtIndex x)
  have hafter := query_pt (x := x) (by exact h0) htable
  rw [hafter]
  simp only [hnew]
  exact leafMapping_splitEntry _ x

theorem query_split (hwf : WellFormed A s) {x pd : BitVec 64}
    (hpd : tableAt s [vmmPml4Index x, vmmPdptIndex x] = some pd)
    (hp : s.mem pd (vmmPdIndex x) &&& vmmPagePresent ≠ 0#64)
    (hs : s.mem pd (vmmPdIndex x) &&& vmmPageSize ≠ 0#64)
    (hgiven : (A.allocPage s.pmm).1 ≠ 0#64) :
    vmmQueryMapping { s with
        mem := splitMem s (A.allocPage s.pmm).1 pd (vmmPdIndex x),
        pmm := (A.allocPage s.pmm).2 } x = vmmQueryMapping s x := by
  by_cases h0 : s.pml4 = 0#64
  · rw [query_of_null h0, query_of_null (by exact h0)]
  obtain ⟨hframe, hfresh⟩ := hwf.supply.first hgiven
  have haligned := hwf.aligned _ _ (vmmPdIndex x) (.inr rfl) hpd hp hs
  rw [query_after_split hwf.unshared hframe hfresh h0 hpd hs hgiven, query_pd h0 hpd, if_neg hp,
    if_pos hs, huge_base_eq haligned]

/-- What `vmm_split_large_pd_entry` guarantees: the mappings are kept, and on success the entry
refers to a table. -/
structure Split (A : PageAllocator σ) (s : VmmState σ) (path : List (Fin 512)) (t : BitVec 64)
    (i : Fin 512) (r : Bool × VmmState σ) : Prop where
  wellFormed : WellFormed A r.2
  extend : Extends s r.2
  table : r.1 = true → tableAt r.2 (path ++ [i]) = some (vmmEntryToTable (r.2.mem t i))

theorem vmmSplitLargePdEntry_split (hwf : WellFormed A s) (ht : tableAt s path = some t)
    (hlen : path.length = 2) :
    Split A s path t i (vmmSplitLargePdEntry A s t i) ∧
      Steps A s (vmmSplitLargePdEntry A s t i).2 := by
  unfold vmmSplitLargePdEntry
  by_cases hlarge : s.mem t i &&& vmmPagePresent = 0#64 ∨ s.mem t i &&& vmmPageSize = 0#64
  · simp only [hlarge, if_true]
    exact ⟨⟨hwf, Extends.refl s, by simp⟩, .refl⟩
  simp only [hlarge, if_false]
  by_cases hgiven : (A.allocPage s.pmm).1 = 0#64
  · simp only [hgiven, if_true]
    exact ⟨⟨hwf.after_null, extends_pmm s _, by simp⟩, Steps.refl.failed hgiven⟩
  simp only [hgiven, if_false]
  push Not at hlarge
  have hlinks := links_split ht hlen hlarge.2 hgiven
  refine ⟨⟨hlinks.wellFormed hwf, hlinks.extends_of_query hwf ?_, ?_⟩, Steps.refl.link hwf hlinks⟩
  · intro x hx
    rcases hx with ⟨rest, hrest⟩
    -- the walk of `x` runs through the split entry, so its path is that of the directory
    have hpath : pagePath x = path ++ i :: rest := by simp [← hrest]
    rcases pagePath_split hpath with ⟨hρ, hj⟩ | ⟨hρ, hj⟩ | ⟨hρ, hj⟩ | ⟨hρ, hj⟩ <;> subst hρ hj <;>
      simp only [List.length_nil, List.length_cons] at hlen
    · omega
    · omega
    · exact query_split hwf ht hlarge.1 hlarge.2 hgiven
    · omega
  · intro _
    have hentry := hlinks.entry
    have hframe := (hwf.supply.first hgiven).1.and_physMask
    exact (hlinks.tableAt_new hwf).trans
      (by rw [show VmmState.mem _ t i = _ from hentry, hlinks.flags.entry_table, hframe])

/-! ## The walk -/

theorem vmmWalkLevel_stepped (hwf : WellFormed A s) (ht : tableAt s path = some t)
    (hlen : path.length ≤ 2) (create : Bool) :
    Stepped A s (path ++ [i]) (vmmWalkLevel A s create t i) := by
  unfold vmmWalkLevel
  cases create with
  | true => exact vmmGetOrCreateNextTable_stepped hwf ht hlen
  | false =>
    simp only [Bool.false_eq_true, if_false]
    split
    · exact stepped_none hwf
    · rename_i h
      push Not at h
      exact stepped_of_present hwf ht hlen h.1 h.2

theorem vmmWalkLastLevel_stepped (hwf : WellFormed A s) (ht : tableAt s path = some t)
    (hlen : path.length = 2) (create : Bool) :
    Stepped A s (path ++ [i]) (vmmWalkLastLevel A s create t i) := by
  have hle : path.length ≤ 2 := by omega
  unfold vmmWalkLastLevel
  cases create with
  | true =>
    -- a failed first attempt is repeated after a large page was split
    simp only [if_true]
    have hget := vmmGetOrCreateNextTable_stepped (i := i) hwf ht hle
    match hr : vmmGetOrCreateNextTable A s t i with
    | (some pt, s₁) =>
      rw [hr] at hget
      exact hget
    | (none, s₁) =>
      rw [hr] at hget
      have ht₁ := hget.extend.tables path t ht
      simp only
      split
      · have hsplit := vmmSplitLargePdEntry_split (i := i) hget.wellFormed ht₁ hlen
        match hr₂ : vmmSplitLargePdEntry A s₁ t i with
        | (true, s₂) =>
          rw [hr₂] at hsplit
          have ht₂ := hsplit.1.extend.tables path t ht₁
          exact Stepped.trans (hget.extend.trans hsplit.1.extend) (hget.steps.trans hsplit.2)
            (vmmGetOrCreateNextTable_stepped hsplit.1.wellFormed ht₂ hle)
        | (false, s₂) =>
          rw [hr₂] at hsplit
          exact Stepped.trans (hget.extend.trans hsplit.1.extend) (hget.steps.trans hsplit.2)
            (stepped_none hsplit.1.wellFormed)
      · exact Stepped.trans hget.extend hget.steps (stepped_none hget.wellFormed)
  | false =>
    simp only [Bool.false_eq_true, if_false]
    split
    · exact stepped_none hwf
    rename_i hp
    split
    · have hsplit := vmmSplitLargePdEntry_split (i := i) hwf ht hlen
      match hr : vmmSplitLargePdEntry A s t i with
      | (true, s₁) =>
        rw [hr] at hsplit
        refine ⟨⟨hsplit.1.wellFormed, hsplit.1.extend, ?_⟩, hsplit.2⟩
        intro t' ht'
        rw [← Option.some.inj ht']
        exact hsplit.1.table rfl
      | (false, s₁) =>
        rw [hr] at hsplit
        exact Stepped.trans hsplit.1.extend hsplit.2 (stepped_none hsplit.1.wellFormed)
    · rename_i hs
      exact stepped_of_present hwf ht hle hp (not_not.mp hs)

end Steps

section Walk

variable {v pt : BitVec 64}

/-- The walk without `create` ends at the page table `pt`.  The walk refuses a PML4 entry with the
page-size bit, which the query follows. -/
structure Walkable (s : VmmState σ) (v pt : BitVec 64) : Prop where
  pml4 : s.pml4 ≠ 0#64
  table : tableAt s [vmmPml4Index v, vmmPdptIndex v, vmmPdIndex v] = some pt
  root : s.mem s.pml4 (vmmPml4Index v) &&& vmmPageSize = 0#64

theorem Walkable.keeps (h : Walkable s v pt) (hkeeps : Keeps s s') : Walkable s' v pt where
  pml4 := by
    rw [hkeeps.pml4]
    exact h.pml4
  table := hkeeps.tables _ _ h.table
  root := by
    obtain ⟨pd, hpd, _⟩ := tableAt_snoc_some [vmmPml4Index v, vmmPdptIndex v] h.table
    obtain ⟨pdpt, hpdpt, _⟩ := tableAt_snoc_some [vmmPml4Index v] hpd
    obtain ⟨r, hr, hchild⟩ := tableAt_snoc_some [] hpdpt
    rw [tableAt_nil, Option.some.injEq] at hr
    subst hr
    rw [hkeeps.pml4, hkeeps.links [] s.pml4 _ tableAt_nil (by rw [hchild]; simp)]
    exact h.root

/-- The first level of a walk with `create` leaves an entry that the walk without it accepts. -/
theorem vmmGetOrCreateNextTable_small {t next : BitVec 64} {i : Fin 512} {s₁ : VmmState σ}
    (h : vmmGetOrCreateNextTable A s t i = (some next, s₁)) :
    s₁.mem t i &&& vmmPagePresent ≠ 0#64 ∧ s₁.mem t i &&& vmmPageSize = 0#64 := by
  unfold vmmGetOrCreateNextTable at h
  simp only at h
  by_cases hp : s.mem t i &&& vmmPagePresent ≠ 0#64
  · rw [if_pos hp] at h
    by_cases hs : s.mem t i &&& vmmPageSize ≠ 0#64
    · rw [if_pos hs] at h
      cases h
    · rw [if_neg hs] at h
      cases h
      exact ⟨hp, not_not.mp hs⟩
  · rw [if_neg hp] at h
    by_cases hnull : (A.allocPage s.pmm).1 = 0#64
    · rw [if_pos hnull] at h
      cases h
    · rw [if_neg hnull] at h
      cases h
      simp only [write_self, BitVec.or_assoc]
      exact ⟨linkFlags_table.entry_present, linkFlags_table.entry_small⟩

theorem vmmWalkLevel_small {t next : BitVec 64} {i : Fin 512} {create : Bool}
    (h : vmmWalkLevel A s create t i = (some next, s')) :
    s'.mem t i &&& vmmPagePresent ≠ 0#64 ∧ s'.mem t i &&& vmmPageSize = 0#64 := by
  cases create with
  | true => exact vmmGetOrCreateNextTable_small h
  | false =>
    simp only [vmmWalkLevel, Bool.false_eq_true, if_false] at h
    split at h
    · cases h
    · rename_i hsmall
      push Not at hsmall
      cases h
      exact hsmall

/-- What the walk guarantees: the mappings are kept, and the page table that it returns is the one
on the path of `v`. -/
structure WalkedToPt (A : PageAllocator σ) (s : VmmState σ) (v : BitVec 64)
    (r : Option (BitVec 64 × Fin 512) × VmmState σ) : Prop where
  wellFormed : WellFormed A r.2
  extend : Extends s r.2
  steps : Steps A s r.2
  walkable : ∀ pt i, r.1 = some (pt, i) → i = vmmPtIndex v ∧ Walkable r.2 v pt

theorem vmmWalkToPt_spec (hwf : WellFormed A s) (v : BitVec 64) (create : Bool) :
    WalkedToPt A s v (vmmWalkToPt A s v create) := by
  unfold vmmWalkToPt
  by_cases h0 : s.pml4 = 0#64
  · simp only [h0, if_true]
    exact ⟨hwf, Extends.refl s, .refl, by simp⟩
  simp only [h0, if_false]
  have h4 := vmmWalkLevel_stepped (i := vmmPml4Index v) hwf tableAt_nil (by simp) create
  match hr₄ : vmmWalkLevel A s create s.pml4 (vmmPml4Index v) with
  | (none, s₁) =>
    rw [hr₄] at h4
    exact ⟨h4.wellFormed, h4.extend, h4.steps, by simp⟩
  | (some pdpt, s₁) =>
    rw [hr₄] at h4
    have h3 := vmmWalkLevel_stepped (i := vmmPdptIndex v) h4.wellFormed (h4.table pdpt rfl)
      (by simp) create
    simp only
    match hr₃ : vmmWalkLevel A s₁ create pdpt (vmmPdptIndex v) with
    | (none, s₂) =>
      rw [hr₃] at h3
      exact ⟨h3.wellFormed, h4.extend.trans h3.extend, h4.steps.trans h3.steps, by simp⟩
    | (some pd, s₂) =>
      rw [hr₃] at h3
      have h2 := vmmWalkLastLevel_stepped (i := vmmPdIndex v) h3.wellFormed (h3.table pd rfl)
        (by simp) create
      simp only
      match hr₂ : vmmWalkLastLevel A s₂ create pd (vmmPdIndex v) with
      | (none, s₃) =>
        rw [hr₂] at h2
        exact ⟨h2.wellFormed, (h4.extend.trans h3.extend).trans h2.extend,
          (h4.steps.trans h3.steps).trans h2.steps, by simp⟩
      | (some pt, s₃) =>
        rw [hr₂] at h2
        have hext := (h4.extend.trans h3.extend).trans h2.extend
        refine ⟨h2.wellFormed, hext, (h4.steps.trans h3.steps).trans h2.steps, ?_⟩
        intro pt' i hi
        simp only [Option.some.injEq, Prod.mk.injEq] at hi
        rcases hi with ⟨rfl, rfl⟩
        refine ⟨rfl, by rw [hext.pml4]; exact h0, h2.table pt rfl, ?_⟩
        -- the lower levels keep the entry of the first one
        have hsmall := vmmWalkLevel_small hr₄
        have hkeeps := (h3.steps.trans h2.steps).keeps
        have hroot : s.pml4 = s₁.pml4 := h4.extend.pml4.symm
        have hlink : childTable 0 (s₁.mem s₁.pml4 (vmmPml4Index v)) ≠ none := by
          rw [← hroot, childTable, if_neg hsmall.1]
          simp
        rw [hkeeps.pml4, hkeeps.links [] s₁.pml4 _ tableAt_nil hlink, ← hroot]
        exact hsmall.2

end Walk

/-! ## The frame law -/

/-- What an operation on the page of `v` may change: from `s` to `s'` every other page keeps its
mapping, and the addresses of the page have the mapping `m`. -/
structure ChangesPage (A : PageAllocator σ) (s s' : VmmState σ) (v : BitVec 64)
    (m : BitVec 64 → Option (BitVec 64 × BitVec 64)) : Prop where
  wellFormed : WellFormed A s'
  pml4 : s'.pml4 = s.pml4
  other : ∀ x, ¬ SamePage x v → vmmQueryMapping s' x = vmmQueryMapping s x
  page : ∀ x, SamePage x v → vmmQueryMapping s' x = m x
  links : LinksFrom s s'

theorem Extends.changesPage {s' : VmmState σ} (hwf : WellFormed A s') (h : Extends s s')
    (v : BitVec 64) : ChangesPage A s s' v (vmmQueryMapping s) :=
  ⟨hwf, h.pml4, fun x _ => h.query x, fun x _ => h.query x, h.links⟩

theorem changesPage_write_leaf {s' : VmmState σ} {v pt : BitVec 64} (hwf : WellFormed A s')
    (h0 : s'.pml4 ≠ 0#64) (hext : Extends s s')
    (hpt : tableAt s' [vmmPml4Index v, vmmPdptIndex v, vmmPdIndex v] = some pt) (e : BitVec 64) :
    ChangesPage A s { s' with mem := write s'.mem pt (vmmPtIndex v) e } v (leafMapping e) where
  wellFormed := wellFormed_write_leaf hwf hpt rfl e
  pml4 := hext.pml4
  other x hx := by
    have hpath : pagePath x ≠ pagePath v := fun h => hx ((pagePath_eq_iff x v).mp h)
    rw [query_write_leaf_other hwf hpt e hpath rfl, hext.query]
  page x hx := by
    obtain ⟨h4, h3, h2, h1⟩ := hx.indices
    rw [← h4, ← h3, ← h2] at hpt
    rw [← h1]
    exact query_write_leaf_self hwf h0 hpt e
  links := hext.links.trans (linksFrom_write_leaf hwf hpt rfl e)

/-- The entry that `vmm_map_page` stores. -/
def mapEntry (p flags : BitVec 64) : BitVec 64 := (p &&& vmmPhysMask) ||| leafFlags flags

/-- What a call does to the page of `v`: it fails and keeps every mapping, or it stores `e` over an
entry with the property `P`, in the page table at the end of the walk. -/
inductive Stores (A : PageAllocator σ) (s : VmmState σ) (v e : BitVec 64)
    (P : BitVec 64 → Prop) : Bool × VmmState σ → Prop
  | failed {s' : VmmState σ} (hwf : WellFormed A s') (hext : Extends s s')
    (hsteps : Steps A s s') : Stores A s v e P (false, s')
  | stored {s' : VmmState σ} {pt : BitVec 64} (hv : v.toNat % 4096 = 0) (hwf : WellFormed A s')
    (hext : Extends s s') (hsteps : Steps A s s') (hpt : Walkable s' v pt)
    (hold : P (s'.mem pt (vmmPtIndex v))) :
    Stores A s v e P (true, { s' with mem := write s'.mem pt (vmmPtIndex v) e })

section Stores

variable {v e : BitVec 64} {P : BitVec 64 → Prop} {r : Bool × VmmState σ}

theorem Stores.changes (h : Stores A s v e P r) :
    ChangesPage A s r.2 v (if r.1 then leafMapping e else vmmQueryMapping s) := by
  cases h with
  | failed hwf hext _ => exact hext.changesPage hwf v
  | stored _ hwf hext _ hpt _ => exact changesPage_write_leaf hwf hpt.pml4 hext hpt.table e

theorem Stores.steps (h : Stores A s v e P r) : Steps A s r.2 := by
  cases h with
  | failed _ _ hsteps => exact hsteps
  | stored _ hwf _ hsteps hpt _ => exact hsteps.leaf hwf hpt.table rfl e

end Stores

section

variable (hwf : WellFormed A s)

include hwf

theorem vmmMapPage_stores (v p flags : BitVec 64) :
    Stores A s v (mapEntry p flags) (· &&& vmmPagePresent = 0#64) (vmmMapPage A s v p flags) := by
  unfold vmmMapPage
  split
  · exact .failed hwf (Extends.refl s) .refl
  rename_i hbad
  have hv : v &&& vmmPageOffsetMask = 0#64 := not_not.mp fun h => hbad (.inl h)
  have hwalk := vmmWalkToPt_spec hwf v true
  match hr : vmmWalkToPt A s v true with
  | (none, s₁) =>
    rw [hr] at hwalk
    exact .failed hwalk.wellFormed hwalk.extend hwalk.steps
  | (some (pt, i), s₁) =>
    rw [hr] at hwalk
    obtain ⟨rfl, hpt⟩ := hwalk.walkable pt i rfl
    simp only
    split
    · exact .failed hwalk.wellFormed hwalk.extend hwalk.steps
    · rename_i hvacant
      exact .stored ((and_offsetMask_eq_zero_iff v).mp hv) hwalk.wellFormed hwalk.extend
        hwalk.steps hpt (not_not.mp hvacant)

theorem vmmUnmapPage_stores (v : BitVec 64) :
    Stores A s v 0#64 (· &&& vmmPagePresent ≠ 0#64) (vmmUnmapPage A s v) := by
  unfold vmmUnmapPage
  split
  · exact .failed hwf (Extends.refl s) .refl
  rename_i hv
  have hwalk := vmmWalkToPt_spec hwf v false
  match hr : vmmWalkToPt A s v false with
  | (none, s₁) =>
    rw [hr] at hwalk
    exact .failed hwalk.wellFormed hwalk.extend hwalk.steps
  | (some (pt, i), s₁) =>
    rw [hr] at hwalk
    obtain ⟨rfl, hpt⟩ := hwalk.walkable pt i rfl
    simp only
    split
    · exact .failed hwalk.wellFormed hwalk.extend hwalk.steps
    · rename_i hpresent
      exact .stored ((and_offsetMask_eq_zero_iff v).mp (not_not.mp hv)) hwalk.wellFormed
        hwalk.extend hwalk.steps hpt hpresent

theorem vmmMapPage_changes (v p flags : BitVec 64) :
    ChangesPage A s (vmmMapPage A s v p flags).2 v
      (if (vmmMapPage A s v p flags).1 then leafMapping (mapEntry p flags)
      else vmmQueryMapping s) :=
  (vmmMapPage_stores hwf v p flags).changes

theorem vmmUnmapPage_changes (v : BitVec 64) :
    ChangesPage A s (vmmUnmapPage A s v).2 v
      (if (vmmUnmapPage A s v).1 then fun _ => none else vmmQueryMapping s) := by
  have hnone : leafMapping 0#64 = fun _ => none := by
    funext x
    simp [leafMapping]
  rw [← hnone]
  exact (vmmUnmapPage_stores hwf v).changes

end

/-- Only page-aligned addresses are mapped. -/
theorem vmmMapPage_aligned {v p flags : BitVec 64} (h : (vmmMapPage A s v p flags).1 = true) :
    p.toNat % 4096 = 0 := by
  by_contra hp
  have hmask : p &&& vmmPageOffsetMask ≠ 0#64 := by
    intro hzero
    exact hp ((and_offsetMask_eq_zero_iff p).mp hzero)
  simp [vmmMapPage, hmask] at h

theorem leafMapping_mapEntry (p flags x : BitVec 64) :
    leafMapping (mapEntry p flags) x =
      some ((p &&& vmmPhysMask) ||| (x &&& vmmPageOffsetMask), flags &&& mapFlagsMask) := by
  rw [leafMapping, mapEntry, if_neg (leaf_present _ _), leaf_phys, leaf_mapFlags]

/-- The frame law: mapping or unmapping the page of `v` keeps the state well formed and the mapping
of every address that differs from `v` in one of the bits 12 to 47; a successful call gives the
addresses of the page the mapping asked for, a failing one leaves theirs as it was. -/
theorem map_unmap_frame (hwf : WellFormed A s) (v : BitVec 64) :
    (∀ p flags : BitVec 64, p.toNat < 2 ^ 52 →
      WellFormed A (vmmMapPage A s v p flags).2 ∧
      (∀ x, (∃ b, 12 ≤ b ∧ b < 48 ∧ x.getLsbD b ≠ v.getLsbD b) →
        vmmQueryMapping (vmmMapPage A s v p flags).2 x = vmmQueryMapping s x) ∧
      (∀ x, (∀ b, 12 ≤ b → b < 48 → x.getLsbD b = v.getLsbD b) →
        vmmQueryMapping (vmmMapPage A s v p flags).2 x =
          if (vmmMapPage A s v p flags).1 then
            some (p + (x &&& 0xFFF#64), flags &&& (vmmMapWritable ||| vmmMapUser ||| vmmMapNx))
          else vmmQueryMapping s x)) ∧
    WellFormed A (vmmUnmapPage A s v).2 ∧
      (∀ x, (∃ b, 12 ≤ b ∧ b < 48 ∧ x.getLsbD b ≠ v.getLsbD b) →
        vmmQueryMapping (vmmUnmapPage A s v).2 x = vmmQueryMapping s x) ∧
      (∀ x, (∀ b, 12 ≤ b → b < 48 → x.getLsbD b = v.getLsbD b) →
        vmmQueryMapping (vmmUnmapPage A s v).2 x =
          if (vmmUnmapPage A s v).1 then none else vmmQueryMapping s x) := by
  have hdiff : ∀ x, (∃ b, 12 ≤ b ∧ b < 48 ∧ x.getLsbD b ≠ v.getLsbD b) → ¬ SamePage x v := by
    intro x hx hsame
    rcases hx with ⟨b, hlo, hhi, hne⟩
    exact hne (hsame b hlo hhi)
  refine ⟨?_, ?_⟩
  · intro p flags hp
    have hmap := vmmMapPage_changes hwf v p flags
    refine ⟨hmap.wellFormed, fun x hx => hmap.other x (hdiff x hx), ?_⟩
    intro x hx
    rw [hmap.page x hx]
    split
    · rename_i hok
      have hframe : IsFrame p := ⟨vmmMapPage_aligned hok, hp⟩
      rw [leafMapping_mapEntry, hframe.and_physMask, frame_or_offset hframe]
      rfl
    · rfl
  · have hunmap := vmmUnmapPage_changes hwf v
    refine ⟨hunmap.wellFormed, fun x hx => hunmap.other x (hdiff x hx), ?_⟩
    intro x hx
    rw [hunmap.page x hx]
    split <;> rfl

/-- Two tables are created to map the page at 1 GiB, and its neighbour stays unmapped. -/
theorem map_unmap_frame_smallMachine :
    WellFormed pmmAllocator (bootState smallMachine 0x200000#64) ∧
    vmmQueryMapping (vmmMapPage pmmAllocator (bootState smallMachine 0x200000#64) 0x40000000#64
      0x5000#64 (vmmMapUser ||| vmmMapWritable)).2 0x40000123#64 =
        some (0x5123#64, vmmMapUser ||| vmmMapWritable) ∧
    vmmQueryMapping (vmmMapPage pmmAllocator (bootState smallMachine 0x200000#64) 0x40000000#64
      0x5000#64 (vmmMapUser ||| vmmMapWritable)).2 0x40001000#64 = none ∧
    vmmQueryMapping (vmmUnmapPage pmmAllocator (bootState smallMachine 0x200000#64)
      0x400000#64).2 0x400ABC#64 = none := by
  have hwf := bootState_wellFormed smallMachine_base smallMachine_supplies
  have hmap := (map_unmap_frame hwf 0x40000000#64).1 0x5000#64 (vmmMapUser ||| vmmMapWritable)
    (by decide)
  have hunmap := (map_unmap_frame hwf 0x400000#64).2
  refine ⟨hwf, ?_, ?_, ?_⟩
  · rw [hmap.2.2 0x40000123#64 (by decide +kernel), if_pos (by decide +kernel)]
    decide
  · rw [hmap.2.1 0x40001000#64 ⟨12, by decide, by decide, by decide⟩]
    decide +kernel
  · rw [hunmap.2.2 0x400ABC#64 (by decide +kernel), if_pos (by decide +kernel)]

end GnuOS.Vmm
