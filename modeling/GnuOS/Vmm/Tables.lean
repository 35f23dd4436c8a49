import GnuOS.Lib.TableTree
import GnuOS.Vmm.Entries

/-!
# The tree of page tables

The tables reached from the PML4 form a tree in memory: `tableAt` follows a path of indices.  A
state is well formed when no table is reached twice, every large entry holds a base aligned to its
size, and what the page allocator will hand out is disjoint from the tables.

`vmm.c` changes memory in three ways: it links a fresh table, it replaces a 2 MiB entry by a
table of small ones, and it stores a leaf entry.  The first two keep every mapping, the third
changes the mapping of one page only.
-/

namespace GnuOS.Vmm

open GnuOS.Lib List

variable {σ : Type} {A : PageAllocator σ} {s s' : VmmState σ}

/-! ## Definitions -/

/-- The table that an entry of a table of depth `d` refers to.  The query follows every present
PML4 entry (depth 0); below that, an entry with the page-size bit is a large page, and the
entries of a page table (depth 3) are pages. -/
def childTable (d : ℕ) (e : BitVec 64) : Option (BitVec 64) :=
  if e &&& vmmPagePresent = 0#64 then none
  else if d = 0 ∨ (d ≤ 2 ∧ e &&& vmmPageSize = 0#64) then some (vmmEntryToTable e)
  else none

def tableAt (s : VmmState σ) (path : List (Fin 512)) : Option (BitVec 64) :=
  descend childTable s.mem 0 s.pml4 path

/-- The answer to the `n`-th of the next calls of the page allocator. -/
def answer (A : PageAllocator σ) : σ → ℕ → BitVec 64
  | a, 0 => (A.allocPage a).1
  | a, n + 1 => answer A (A.allocPage a).2 n

/-- Each of the next answers of the allocator is `NULL`, or a frame that is not one of the given
tables and was not handed out before it. -/
structure Supplies (A : PageAllocator σ) (a : σ) (isTable : BitVec 64 → Prop) : Prop where
  frame : ∀ n, answer A a n ≠ 0#64 → IsFrame (answer A a n) ∧ ¬ isTable (answer A a n)
  distinct : ∀ m n, m < n → answer A a n ≠ 0#64 → answer A a m ≠ answer A a n

/-- A well-formed page-table state.  A large entry of a table of depth `d` covers
`2 ^ (39 - 9 * d)` bytes: 1 GiB at depth 1, 2 MiB at depth 2. -/
structure WellFormed (A : PageAllocator σ) (s : VmmState σ) : Prop where
  unshared : Unshared childTable s.mem s.pml4
  aligned : ∀ path t i, path.length = 1 ∨ path.length = 2 → tableAt s path = some t →
    s.mem t i &&& vmmPagePresent ≠ 0#64 → s.mem t i &&& vmmPageSize ≠ 0#64 →
    (s.mem t i &&& vmmPhysMask).toNat % 2 ^ (39 - 9 * path.length) = 0
  supply : Supplies A s.pmm (IsTable childTable s.mem s.pml4)

/-- What `vmm_query_mapping` makes of the page-table entry it ends at. -/
def leafMapping (e x : BitVec 64) : Option (BitVec 64 × BitVec 64) :=
  if e &&& vmmPagePresent = 0#64 then none
  else some ((e &&& vmmPhysMask) ||| (x &&& vmmPageOffsetMask), vmmEntryToMapFlags e)

/-! ## Writes -/

theorem write_self (mem : Tables) (t : BitVec 64) (i : Fin 512) (e : BitVec 64) :
    write mem t i e t i = e := if_pos ⟨rfl, rfl⟩

theorem write_of_ne (mem : Tables) {t r : BitVec 64} {i j : Fin 512} (e : BitVec 64)
    (h : r ≠ t ∨ j ≠ i) : write mem t i e r j = mem r j := by
  apply if_neg
  intro hcon
  rcases h with h | h
  · exact h hcon.1
  · exact h hcon.2

theorem foldl_write (t : BitVec 64) (entry : Fin 512 → BitVec 64) (r : BitVec 64) (j : Fin 512)
    (l : List (Fin 512)) (mem : Tables) :
    l.foldl (fun m i => write m t i (entry i)) mem r j =
      if r = t ∧ j ∈ l then entry j else mem r j := by
  induction l generalizing mem with
  | nil => simp
  | cons i l ih =>
    rw [foldl_cons, ih]
    by_cases hl : r = t ∧ j ∈ l
    · rw [if_pos hl, if_pos ⟨hl.1, mem_cons_of_mem i hl.2⟩]
    · rw [if_neg hl]
      by_cases hi : r = t ∧ j = i
      · rw [hi.1, hi.2, write_self, if_pos ⟨rfl, mem_cons_self⟩]
      · rw [write_of_ne _ _ (by tauto), if_neg]
        simp only [mem_cons]
        tauto

@[simp] theorem writeAll_self (mem : Tables) (t : BitVec 64) (entry : Fin 512 → BitVec 64)
    (j : Fin 512) : writeAll mem t entry t j = entry j := by
  simp [writeAll, foldl_write]

theorem writeAll_of_ne (mem : Tables) {t r : BitVec 64} (entry : Fin 512 → BitVec 64)
    (h : r ≠ t) (j : Fin 512) : writeAll mem t entry r j = mem r j := by
  simp [writeAll, foldl_write, h]

/-! ## Tables along the path of an address -/

theorem childTable_eq_some {d : ℕ} {e t : BitVec 64} :
    childTable d e = some t ↔ e &&& vmmPagePresent ≠ 0#64 ∧
      (d = 0 ∨ (d ≤ 2 ∧ e &&& vmmPageSize = 0#64)) ∧ vmmEntryToTable e = t := by
  unfold childTable
  split
  · simp [*]
  · split <;> simp [*]

theorem childTable_of_not_present {d : ℕ} {e : BitVec 64} (h : e &&& vmmPagePresent = 0#64) :
    childTable d e = none := if_pos h

theorem childTable_of_large {d : ℕ} {e : BitVec 64} (hd : d ≠ 0)
    (h : e &&& vmmPageSize ≠ 0#64) : childTable d e = none := by
  simp [childTable, hd, h]

/-- The entries of a page table refer to no tables. -/
theorem childTable_leaf {d : ℕ} (hd : 3 ≤ d) (e : BitVec 64) : childTable d e = none := by
  have h0 : d ≠ 0 := by omega
  have h2 : ¬ d ≤ 2 := by omega
  simp [childTable, h0, h2]

@[simp] theorem tableAt_nil : tableAt s [] = some s.pml4 := rfl

theorem tableAt_snoc {path : List (Fin 512)} {t : BitVec 64} (h : tableAt s path = some t)
    (i : Fin 512) : tableAt s (path ++ [i]) = childTable path.length (s.mem t i) :=
  descend_snoc h

/-- A present entry that is not large leads to the table it names. -/
theorem tableAt_of_present {path : List (Fin 512)} {t : BitVec 64} (h : tableAt s path = some t)
    {i : Fin 512} (hp : s.mem t i &&& vmmPagePresent ≠ 0#64)
    (hs : path.length = 0 ∨ (path.length ≤ 2 ∧ s.mem t i &&& vmmPageSize = 0#64)) :
    tableAt s (path ++ [i]) = some (vmmEntryToTable (s.mem t i)) :=
  (tableAt_snoc h i).trans (childTable_eq_some.mpr ⟨hp, hs, rfl⟩)

theorem tableAt_snoc_some (path : List (Fin 512)) {i : Fin 512} {t : BitVec 64}
    (h : tableAt s (path ++ [i]) = some t) :
    ∃ r, tableAt s path = some r ∧ childTable path.length (s.mem r i) = some t :=
  descend_snoc_some h

variable {x : BitVec 64}

theorem pagePath_split {ρ rest : List (Fin 512)} {j : Fin 512} (h : pagePath x = ρ ++ j :: rest) :
    (ρ = [] ∧ j = vmmPml4Index x) ∨ (ρ = [vmmPml4Index x] ∧ j = vmmPdptIndex x) ∨
      (ρ = [vmmPml4Index x, vmmPdptIndex x] ∧ j = vmmPdIndex x) ∨
      (ρ = [vmmPml4Index x, vmmPdptIndex x, vmmPdIndex x] ∧ j = vmmPtIndex x) := by
  rcases ρ with _ | ⟨a, _ | ⟨b, _ | ⟨c, _ | ⟨d, ρ⟩⟩⟩⟩ <;> simp_all [pagePath]

/-! ## The query along the tree -/

section Query

variable {x : BitVec 64}

/-- The entries on the way to a page directory. -/
theorem path_to_pd {pd : BitVec 64} (h : tableAt s [vmmPml4Index x, vmmPdptIndex x] = some pd) :
    s.mem s.pml4 (vmmPml4Index x) &&& vmmPagePresent ≠ 0#64 ∧
      s.mem (vmmEntryToTable (s.mem s.pml4 (vmmPml4Index x))) (vmmPdptIndex x) &&&
        vmmPagePresent ≠ 0#64 ∧
      s.mem (vmmEntryToTable (s.mem s.pml4 (vmmPml4Index x))) (vmmPdptIndex x) &&&
        vmmPageSize = 0#64 ∧
      vmmEntryToTable (s.mem (vmmEntryToTable (s.mem s.pml4 (vmmPml4Index x)))
        (vmmPdptIndex x)) = pd := by
  rcases tableAt_snoc_some [vmmPml4Index x] h with ⟨pdpt, hpdpt, hpd⟩
  rcases tableAt_snoc_some [] hpdpt with ⟨r, hr, hpdpt'⟩
  rw [tableAt_nil, Option.some.injEq] at hr
  subst hr
  rcases childTable_eq_some.mp hpdpt' with ⟨hp4, _, rfl⟩
  rcases childTable_eq_some.mp hpd with ⟨hp3, hsmall | ⟨_, hsmall⟩, hpd⟩
  · simp at hsmall
  · exact ⟨hp4, hp3, hsmall, hpd⟩

/-- The query at an address whose page directory exists. -/
theorem query_pd (h0 : s.pml4 ≠ 0#64) {pd : BitVec 64}
    (h : tableAt s [vmmPml4Index x, vmmPdptIndex x] = some pd) :
    vmmQueryMapping s x =
      if s.mem pd (vmmPdIndex x) &&& vmmPagePresent = 0#64 then none
      else if s.mem pd (vmmPdIndex x) &&& vmmPageSize ≠ 0#64 then
        some ((s.mem pd (vmmPdIndex x) &&& vmmPhysMask) ||| (x &&& ((1#64 <<< 21) - 1#64)),
          vmmEntryToMapFlags (s.mem pd (vmmPdIndex x)))
      else leafMapping (s.mem (vmmEntryToTable (s.mem pd (vmmPdIndex x))) (vmmPtIndex x)) x := by
  rcases path_to_pd h with ⟨hp4, hp3, hsmall, hpd⟩
  simp only [vmmQueryMapping, h0, hp4, hp3, hsmall, hpd, leafMapping, if_false, ne_eq, not_true]

/-- The query at an address whose page table exists. -/
theorem query_pt (h0 : s.pml4 ≠ 0#64) {pt : BitVec 64}
    (h : tableAt s [vmmPml4Index x, vmmPdptIndex x, vmmPdIndex x] = some pt) :
    vmmQueryMapping s x = leafMapping (s.mem pt (vmmPtIndex x)) x := by
  rcases tableAt_snoc_some [vmmPml4Index x, vmmPdptIndex x] h with ⟨pd, hpd, hpt⟩
  rcases childTable_eq_some.mp hpt with ⟨hp2, hsmall | ⟨_, hsmall⟩, hpt⟩
  · simp at hsmall
  · rw [query_pd h0 hpd, if_neg hp2, if_neg (not_not.mpr hsmall), hpt]

theorem query_of_null (h0 : s.pml4 = 0#64) : vmmQueryMapping s x = none := by
  simp only [vmmQueryMapping, h0, if_true]

/-- The walk ends at the first entry that is not present. -/
theorem query_of_not_present {ρ rest : List (Fin 512)} {j : Fin 512} {r : BitVec 64}
    (hx : pagePath x = ρ ++ j :: rest) (hr : tableAt s ρ = some r)
    (hp : s.mem r j &&& vmmPagePresent = 0#64) : vmmQueryMapping s x = none := by
  by_cases h0 : s.pml4 = 0#64
  · exact query_of_null h0
  rcases pagePath_split hx with ⟨hρ, hj⟩ | ⟨hρ, hj⟩ | ⟨hρ, hj⟩ | ⟨hρ, hj⟩ <;> subst hρ hj
  · rw [tableAt_nil, Option.some.injEq] at hr
    subst hr
    simp only [vmmQueryMapping, h0, hp, if_true, if_false]
  · rcases tableAt_snoc_some [] hr with ⟨r', hr', hpdpt⟩
    rw [tableAt_nil, Option.some.injEq] at hr'
    subst hr'
    rcases childTable_eq_some.mp hpdpt with ⟨hp4, _, rfl⟩
    simp only [vmmQueryMapping, h0, hp4, hp, if_true, if_false]
  · rw [query_pd h0 hr, if_pos hp]
  · rw [query_pt h0 hr, leafMapping, if_pos hp]

/-- The query reads only the entries on the path of the address. -/
theorem query_congr (hpml4 : s'.pml4 = s.pml4)
    (h : ∀ ρ j rest, pagePath x = ρ ++ j :: rest → ∀ r, tableAt s ρ = some r →
      s'.mem r j = s.mem r j) : vmmQueryMapping s' x = vmmQueryMapping s x := by
  have h4 := h [] _ _ rfl s.pml4 tableAt_nil
  have h3 := h [vmmPml4Index x] _ _ rfl
  have h2 := h [vmmPml4Index x, vmmPdptIndex x] _ _ rfl
  have h1 := h [vmmPml4Index x, vmmPdptIndex x, vmmPdIndex x] _ _ rfl
  simp only [vmmQueryMapping, hpml4, h4]
  refine ite_congr rfl (fun _ => rfl) fun h0 => ?_
  refine ite_congr rfl (fun _ => rfl) fun hp4 => ?_
  -- from here on each table on the path is reached, so its entry is the same
  have t3 := tableAt_of_present tableAt_nil hp4 (.inl rfl)
  rw [h3 _ t3]
  refine ite_congr rfl (fun _ => rfl) fun hp3 => ?_
  refine ite_congr rfl (fun _ => rfl) fun hs3 => ?_
  have t2 := tableAt_of_present t3 hp3 (.inr ⟨by simp, not_not.mp hs3⟩)
  rw [h2 _ t2]
  refine ite_congr rfl (fun _ => rfl) fun hp2 => ?_
  refine ite_congr rfl (fun _ => rfl) fun hs2 => ?_
  have t1 := tableAt_of_present t2 hp2 (.inr ⟨by simp, not_not.mp hs2⟩)
  rw [h1 _ t1]

end Query

/-! ## The supply of frames -/

theorem Supplies.first {a : σ} {isTable : BitVec 64 → Prop} (h : Supplies A a isTable)
    (hne : (A.allocPage a).1 ≠ 0#64) :
    IsFrame (A.allocPage a).1 ∧ ¬ isTable (A.allocPage a).1 :=
  h.frame 0 hne

theorem Supplies.after_null {a : σ} {isTable : BitVec 64 → Prop} (h : Supplies A a isTable) :
    Supplies A (A.allocPage a).2 isTable where
  frame n := h.frame (n + 1)
  distinct m n hmn := h.distinct (m + 1) (n + 1) (by omega)

/-- The frame handed out may become a table: it is not handed out again. -/
theorem Supplies.after {a : σ} {isTable isTable' : BitVec 64 → Prop} (h : Supplies A a isTable)
    (hsub : ∀ t, isTable' t → isTable t ∨ t = (A.allocPage a).1) :
    Supplies A (A.allocPage a).2 isTable' where
  frame n hn := by
    refine ⟨(h.frame (n + 1) hn).1, ?_⟩
    intro htab
    rcases hsub _ htab with htab | htab
    · exact (h.frame (n + 1) hn).2 htab
    · exact h.distinct 0 (n + 1) (by omega) hn htab.symm
  distinct m n hmn := h.distinct (m + 1) (n + 1) (by omega)

/-! ## Linking a new table -/

/-- Each entry of `s'` that refers to a table is an entry of `s`, or new and writable; a new entry
of the PML4 has the user bit clear. -/
def LinksFrom (s s' : VmmState σ) : Prop :=
  ∀ path t i, tableAt s' path = some t → childTable path.length (s'.mem t i) ≠ none →
    (tableAt s path = some t ∧ s'.mem t i = s.mem t i) ∨
    (s'.mem t i &&& vmmPageWritable ≠ 0#64 ∧ (path = [] → s'.mem t i &&& vmmPageUser = 0#64))

theorem LinksFrom.of_mem_eq (hmem : s'.mem = s.mem) (hpml4 : s'.pml4 = s.pml4) :
    LinksFrom s s' := by
  intro path t i ht _
  apply Or.inl
  rw [tableAt, hmem, hpml4] at ht
  exact ⟨ht, by rw [hmem]⟩

theorem LinksFrom.trans {s₁ s₂ s₃ : VmmState σ} (h : LinksFrom s₁ s₂) (h' : LinksFrom s₂ s₃) :
    LinksFrom s₁ s₃ := by
  intro path t i ht hlink
  rcases h' path t i ht hlink with ⟨ht₂, hmem⟩ | hnew
  · rw [hmem] at hlink ⊢
    exact h path t i ht₂ hlink
  · exact .inr hnew

/-- `s'` has every table and every mapping of `s`. -/
structure Extends (s s' : VmmState σ) : Prop where
  pml4 : s'.pml4 = s.pml4
  tables : ∀ path t, tableAt s path = some t → tableAt s' path = some t
  query : ∀ x, vmmQueryMapping s' x = vmmQueryMapping s x
  links : LinksFrom s s'

theorem Extends.refl (s : VmmState σ) : Extends s s :=
  ⟨rfl, fun _ _ h => h, fun _ => rfl, LinksFrom.of_mem_eq rfl rfl⟩

theorem Extends.trans {s₁ s₂ s₃ : VmmState σ} (h : Extends s₁ s₂) (h' : Extends s₂ s₃) :
    Extends s₁ s₃ where
  pml4 := h'.pml4.trans h.pml4
  tables path t ht := h'.tables path t (h.tables path t ht)
  query x := (h'.query x).trans (h.query x)
  links := h.links.trans h'.links

/-- The allocator does not touch the tables. -/
theorem extends_pmm (s : VmmState σ) (a : σ) : Extends s { s with pmm := a } :=
  ⟨rfl, fun _ _ h => h, fun _ => rfl, LinksFrom.of_mem_eq rfl rfl⟩

/-- A failed allocation changes the allocator only. -/
theorem WellFormed.after_null (h : WellFormed A s) :
    WellFormed A { s with pmm := (A.allocPage s.pmm).2 } :=
  ⟨h.unshared, h.aligned, h.supply.after_null⟩

/-- The memory `mem'` is that of `s` with the new frame of the allocator filled and linked below
entry `i` of the table at the end of `path`, with flags `g`. -/
structure Links (A : PageAllocator σ) (s : VmmState σ) (mem' : Tables) (path : List (Fin 512))
    (t : BitVec 64) (i : Fin 512) (g : BitVec 64) : Prop where
  parent : tableAt s path = some t
  flags : LinkFlags g
  rootFlags : path = [] → g &&& vmmPageUser = 0#64
  given : (A.allocPage s.pmm).1 ≠ 0#64
  vacant : childTable path.length (s.mem t i) = none
  shallow : path.length ≤ 2
  entry : mem' t i = ((A.allocPage s.pmm).1 &&& vmmPhysMask) ||| g
  frame : ∀ r j, r ≠ (A.allocPage s.pmm).1 → r ≠ t ∨ j ≠ i → mem' r j = s.mem r j
  /-- Below a page directory the new table is a page table; elsewhere it is empty. -/
  content : path.length = 2 ∨
    ∀ j, mem' (A.allocPage s.pmm).1 j &&& vmmPagePresent = 0#64

namespace Links

variable {mem' : Tables} {path : List (Fin 512)} {t : BitVec 64} {i : Fin 512} {g : BitVec 64}

section

variable (h : Links A s mem' path t i g)

include h

theorem addsChild_of_fresh (hframe : IsFrame (A.allocPage s.pmm).1)
    (hfresh : ¬ IsTable childTable s.mem s.pml4 (A.allocPage s.pmm).1) :
    AddsChild childTable s.mem mem' s.pml4 path t i (A.allocPage s.pmm).1 where
  parent := h.parent
  vacant := h.vacant
  fresh := hfresh
  linked := by
    rw [childTable_eq_some, h.entry]
    refine ⟨h.flags.entry_present, .inr ⟨h.shallow, h.flags.entry_small⟩, ?_⟩
    rw [h.flags.entry_table, hframe.and_physMask]
  childless j := by
    rcases h.content with hlen | hempty
    · exact childTable_leaf (by omega) _
    · exact childTable_of_not_present (hempty j)
  frame := h.frame

theorem addsChild (hwf : WellFormed A s) :
    AddsChild childTable s.mem mem' s.pml4 path t i (A.allocPage s.pmm).1 :=
  h.addsChild_of_fresh (hwf.supply.first h.given).1 (hwf.supply.first h.given).2

theorem wellFormed (hwf : WellFormed A s) :
    WellFormed A { s with mem := mem', pmm := (A.allocPage s.pmm).2 } where
  unshared := (h.addsChild hwf).unshared hwf.unshared
  aligned ρ r j hlen hr hpresent hlarge := by
    have hadd := h.addsChild hwf
    have hr' : descend childTable mem' 0 s.pml4 ρ = some r := hr
    rw [hadd.descend_iff hwf.unshared] at hr'
    rcases hr' with hold | ⟨hρ, hnew⟩
    · by_cases hlinked : ρ = path ∧ j = i
      · -- the linked entry is not large
        rcases hlinked with ⟨rfl, rfl⟩
        have hrt : r = t := Option.some.inj (hold.symm.trans h.parent)
        have hentry : mem' t j &&& vmmPageSize = 0#64 := by
          rw [h.entry]
          exact h.flags.entry_small
        exact absurd hentry (hrt ▸ hlarge)
      · have hread := hadd.read_eq hwf.unshared hold hlinked
        simp only [hread] at hpresent hlarge ⊢
        exact hwf.aligned ρ r j hlen hold hpresent hlarge
    · rcases h.content with hpt | hempty
      · simp only [hρ, length_append, length_singleton] at hlen
        omega
      · exact absurd (hnew ▸ hempty j) hpresent
  supply := by
    apply hwf.supply.after
    intro r hr
    exact ((h.addsChild hwf).isTable_iff hwf.unshared r).mp hr

/-- Linking keeps the mappings of the addresses whose walk does not reach the linked entry. -/
theorem query_eq (hwf : WellFormed A s) (hx : ¬ path ++ [i] <+: pagePath x) :
    vmmQueryMapping { s with mem := mem', pmm := (A.allocPage s.pmm).2 } x =
      vmmQueryMapping s x := by
  refine query_congr ?_ ?_
  · rfl
  intro ρ j rest hsplit r hr
  apply (h.addsChild hwf).read_eq hwf.unshared hr
  intro hρ
  apply hx
  rw [hsplit, hρ.1, hρ.2]
  exact ⟨rest, by simp⟩

theorem linksFrom (hwf : WellFormed A s) :
    LinksFrom s { s with mem := mem', pmm := (A.allocPage s.pmm).2 } := by
  intro ρ r j hr hlink
  have hadd := h.addsChild hwf
  have hr' : descend childTable mem' 0 s.pml4 ρ = some r := hr
  rw [hadd.descend_iff hwf.unshared] at hr'
  rcases hr' with hold | ⟨rfl, rfl⟩
  · by_cases hlinked : ρ = path ∧ j = i
    · rcases hlinked with ⟨rfl, rfl⟩
      have hrt : r = t := Option.some.inj (hold.symm.trans h.parent)
      subst hrt
      apply Or.inr
      simp only [h.entry]
      refine ⟨h.flags.entry_writable, ?_⟩
      intro hroot
      rw [field_and_of_disjoint (by decide)]
      exact h.rootFlags hroot
    · exact .inl ⟨hold, hadd.read_eq hwf.unshared hold hlinked⟩
  · -- the new table refers to no table
    simp only [length_append, length_singleton] at hlink
    exact absurd (hadd.childless j) hlink

theorem extends_of_query (hwf : WellFormed A s)
    (hquery : ∀ x, path ++ [i] <+: pagePath x →
      vmmQueryMapping { s with mem := mem', pmm := (A.allocPage s.pmm).2 } x =
        vmmQueryMapping s x) :
    Extends s { s with mem := mem', pmm := (A.allocPage s.pmm).2 } where
  pml4 := rfl
  tables ρ r hr := ((h.addsChild hwf).descend_iff hwf.unshared ρ r).mpr (.inl hr)
  query x := by
    by_cases hx : path ++ [i] <+: pagePath x
    · exact hquery x hx
    · exact h.query_eq hwf hx
  links := h.linksFrom hwf

theorem tableAt_new_of_fresh (hun : Unshared childTable s.mem s.pml4)
    (hframe : IsFrame (A.allocPage s.pmm).1)
    (hfresh : ¬ IsTable childTable s.mem s.pml4 (A.allocPage s.pmm).1) :
    tableAt { s with mem := mem', pmm := (A.allocPage s.pmm).2 } (path ++ [i]) =
      some (A.allocPage s.pmm).1 :=
  ((h.addsChild_of_fresh hframe hfresh).descend_iff hun _ _).mpr (.inr ⟨rfl, rfl⟩)

theorem tableAt_new (hwf : WellFormed A s) :
    tableAt { s with mem := mem', pmm := (A.allocPage s.pmm).2 } (path ++ [i]) =
      some (A.allocPage s.pmm).1 :=
  h.tableAt_new_of_fresh hwf.unshared (hwf.supply.first h.given).1 (hwf.supply.first h.given).2

end

end Links

/-- A prefix of the path of an address that ends above the page table goes on with one index. -/
theorem pagePath_prefix {path : List (Fin 512)} {i : Fin 512} (hlen : path.length ≤ 2)
    (h : path ++ [i] <+: pagePath x) :
    ∃ j rest, pagePath x = (path ++ [i]) ++ j :: rest := by
  rcases h with ⟨rest, hrest⟩
  cases rest with
  | nil =>
    have hlen' := congrArg length hrest
    simp [pagePath] at hlen'
    omega
  | cons j rest => exact ⟨j, rest, hrest.symm⟩

/-! ## Storing a leaf entry -/

section Leaf

variable {path : List (Fin 512)} {t : BitVec 64} {i : Fin 512}

section

variable (hwf : WellFormed A s)

include hwf

theorem tableAt_write_leaf (ht : tableAt s path = some t) (hlen : path.length = 3) (e : BitVec 64)
    (ρ : List (Fin 512)) :
    tableAt { s with mem := write s.mem t i e } ρ = tableAt s ρ := by
  apply descend_rewrite hwf.unshared ht
  · intro r j hrj
    exact write_of_ne _ _ hrj
  · rw [childTable_leaf (by omega), childTable_leaf (by omega)]

theorem wellFormed_write_leaf (ht : tableAt s path = some t) (hlen : path.length = 3)
    (e : BitVec 64) :
    WellFormed A { s with mem := write s.mem t i e } where
  unshared ρ ρ' r hρ hρ' := by
    have hr := tableAt_write_leaf (i := i) hwf ht hlen e
    exact hwf.unshared ρ ρ' r ((hr ρ).symm.trans hρ) ((hr ρ').symm.trans hρ')
  aligned ρ r j hρlen hr hpresent hlarge := by
    rw [tableAt_write_leaf hwf ht hlen] at hr
    have hrt : r ≠ t := by
      intro hrt
      have hρ : ρ = path := hwf.unshared ρ path t (hrt ▸ hr) ht
      rw [hρ] at hρlen
      omega
    have hread : write s.mem t i e r j = s.mem r j := write_of_ne _ _ (.inl hrt)
    simp only [hread] at hpresent hlarge ⊢
    exact hwf.aligned ρ r j hρlen hr hpresent hlarge
  supply := by
    have hsame : IsTable childTable (write s.mem t i e) s.pml4 =
        IsTable childTable s.mem s.pml4 := by
      funext r
      apply propext
      apply exists_congr
      intro ρ
      rw [show descend childTable (write s.mem t i e) 0 s.pml4 ρ = tableAt s ρ from
        tableAt_write_leaf hwf ht hlen e ρ]
      rfl
    rw [show IsTable childTable _ _ = _ from hsame]
    exact hwf.supply

theorem linksFrom_write_leaf (ht : tableAt s path = some t) (hlen : path.length = 3)
    (e : BitVec 64) : LinksFrom s { s with mem := write s.mem t i e } := by
  intro ρ r j hr hlink
  rw [tableAt_write_leaf hwf ht hlen] at hr
  apply Or.inl
  refine ⟨hr, write_of_ne _ _ (Or.inl ?_)⟩
  intro hrt
  have hρ : ρ = path := hwf.unshared ρ path t (hrt ▸ hr) ht
  exact hlink (childTable_leaf (by rw [hρ, hlen]) _)

/-- Other pages keep their mapping. -/
theorem query_write_leaf_other (ht : tableAt s path = some t) (e : BitVec 64)
    (hx : pagePath x ≠ path ++ [i]) (hlen : path.length = 3) :
    vmmQueryMapping { s with mem := write s.mem t i e } x = vmmQueryMapping s x := by
  refine query_congr ?_ ?_
  · rfl
  intro ρ j rest hsplit r hr
  apply write_of_ne
  by_contra hcon
  push Not at hcon
  rcases hcon with ⟨hrt, hji⟩
  -- the table is reached by its own path only, and then the whole path of `x` is that of the page
  have hρ : ρ = path := hwf.unshared ρ path t (hrt ▸ hr) ht
  have hlen' := congrArg length hsplit
  simp only [pagePath, length_cons, length_nil, length_append, hρ, hlen] at hlen'
  have hrest : rest = [] := length_eq_zero_iff.mp (by omega)
  exact hx (by rw [hsplit, hρ, hji, hrest])

theorem query_write_leaf_self (h0 : s.pml4 ≠ 0#64) {pt : BitVec 64}
    (ht : tableAt s [vmmPml4Index x, vmmPdptIndex x, vmmPdIndex x] = some pt) (e : BitVec 64) :
    vmmQueryMapping { s with mem := write s.mem pt (vmmPtIndex x) e } x = leafMapping e x := by
  have hpt := (tableAt_write_leaf (i := vmmPtIndex x) hwf ht rfl e _).trans ht
  have hself : write s.mem pt (vmmPtIndex x) e pt (vmmPtIndex x) = e := write_self _ _ _ _
  simp only [query_pt (s := { s with mem := write s.mem pt (vmmPtIndex x) e }) h0 hpt, hself]

end

end Leaf

end GnuOS.Vmm
