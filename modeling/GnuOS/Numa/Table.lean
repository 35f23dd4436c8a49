import GnuOS.Numa.Basic

/-!
# The node table

`numa_add_or_extend_node` keeps one node for each of the first eight proximity domains that come
with a usable range.  A node spans from the lowest base to the highest end of all ranges of its
domain, so the order of the ranges does not matter as long as there are at most eight domains.
-/

namespace GnuOS.Numa

open GnuOS.Lib Function List
open BitVec hiding not_or

/-! ## Ranges -/

/-- The end of the range. -/
def Affinity.rangeEnd (e : Affinity) : ℕ := e.baseAddress.toNat + e.length.toNat

/-- The range is enabled, not empty and does not wrap around. -/
def Affinity.Usable (e : Affinity) : Prop :=
  e.flags &&& acpiSratMemEnabled ≠ 0#32 ∧ 0 < e.length.toNat ∧ e.rangeEnd < 2 ^ 64

instance (e : Affinity) : Decidable e.Usable := inferInstanceAs (Decidable (_ ∧ _))

/-- The domains in the order in which they first occur. -/
def firstSeen (ranges : List Affinity) : List (BitVec 32) :=
  ranges.foldl (fun seen e =>
    if e.proximityDomain ∈ seen then seen else seen ++ [e.proximityDomain]) []

section FirstSeen

variable {ranges : List Affinity} {e : Affinity} {domain : BitVec 32}

theorem firstSeen_concat (ranges : List Affinity) (e : Affinity) :
    firstSeen (ranges ++ [e]) = if e.proximityDomain ∈ firstSeen ranges then firstSeen ranges
      else firstSeen ranges ++ [e.proximityDomain] := by
  unfold firstSeen
  rw [foldl_append, foldl_cons, foldl_nil]

theorem mem_firstSeen_iff : domain ∈ firstSeen ranges ↔
    ∃ e ∈ ranges, e.proximityDomain = domain := by
  induction ranges using reverseRecOn with
  | nil => simp [firstSeen]
  | append_singleton ranges e ih =>
    rw [firstSeen_concat]
    split
    · next hmem =>
      rw [ih]
      constructor
      · rintro ⟨e', he', hdomain⟩
        exact ⟨e', mem_append_left _ he', hdomain⟩
      · rintro ⟨e', he', hdomain⟩
        rcases mem_append.mp he' with he' | he'
        · exact ⟨e', he', hdomain⟩
        · rw [mem_singleton.mp he'] at hdomain
          rw [← ih, ← hdomain]
          exact hmem
    · rw [mem_append, mem_singleton, ih]
      constructor
      · rintro (⟨e', he', hdomain⟩ | rfl)
        · exact ⟨e', mem_append_left _ he', hdomain⟩
        · exact ⟨e, mem_append_right _ (mem_singleton_self e), rfl⟩
      · rintro ⟨e', he', hdomain⟩
        rcases mem_append.mp he' with he' | he'
        · exact .inl ⟨e', he', hdomain⟩
        · rw [mem_singleton.mp he'] at hdomain
          exact .inr hdomain.symm

theorem nodup_firstSeen (ranges : List Affinity) : (firstSeen ranges).Nodup := by
  induction ranges using reverseRecOn with
  | nil => exact nodup_nil
  | append_singleton ranges e ih =>
    rw [firstSeen_concat]
    split
    · exact ih
    · next hnot =>
      rw [← concat_eq_append]
      exact List.Nodup.concat hnot ih

theorem length_firstSeen_le (ranges : List Affinity) (e : Affinity) :
    (firstSeen ranges).length ≤ (firstSeen (ranges ++ [e])).length := by
  rw [firstSeen_concat]
  split
  · exact Nat.le_refl _
  · rw [length_append]
    exact Nat.le_add_right _ _

end FirstSeen

/-! ## One node -/

/-- The range of the node is the hull of its domain. -/
structure IsHull (node : Node) (ranges : List Affinity) : Prop where
  lower : ∃ e ∈ ranges, e.proximityDomain = node.nodeId ∧
    e.baseAddress.toNat = node.base.toNat
  upper : ∃ e ∈ ranges, e.proximityDomain = node.nodeId ∧
    e.rangeEnd = node.base.toNat + node.size.toNat
  within : ∀ e ∈ ranges, e.proximityDomain = node.nodeId →
    node.base.toNat ≤ e.baseAddress.toNat ∧ e.rangeEnd ≤ node.base.toNat + node.size.toNat

section Hull

variable {node : Node} {ranges : List Affinity} {e : Affinity} {a : BitVec 64}

theorem IsHull.fits (h : IsHull node ranges) (husable : ∀ e ∈ ranges, e.Usable) :
    node.base.toNat + node.size.toNat < 2 ^ 64 := by
  obtain ⟨e, he, _, hend⟩ := h.upper
  rw [← hend]
  exact (husable e he).2.2

/-- A range of another domain. -/
theorem IsHull.other (h : IsHull node ranges) (hne : e.proximityDomain ≠ node.nodeId) :
    IsHull node (ranges ++ [e]) where
  lower := by
    obtain ⟨e', he', hlower⟩ := h.lower
    exact ⟨e', mem_append_left _ he', hlower⟩
  upper := by
    obtain ⟨e', he', hupper⟩ := h.upper
    exact ⟨e', mem_append_left _ he', hupper⟩
  within e' he' hdomain := by
    rcases mem_append.mp he' with he' | he'
    · exact h.within e' he' hdomain
    · rw [mem_singleton.mp he'] at hdomain
      exact absurd hdomain hne

/-- The first range of a domain. -/
theorem isHull_single (hnew : ∀ e' ∈ ranges, e'.proximityDomain ≠ e.proximityDomain) :
    IsHull ⟨e.proximityDomain, e.baseAddress, e.length⟩ (ranges ++ [e]) := by
  have hmem : e ∈ ranges ++ [e] := mem_append_right _ (mem_singleton_self e)
  refine ⟨⟨e, hmem, rfl, rfl⟩, ⟨e, hmem, rfl, rfl⟩, ?_⟩
  intro e' he' hdomain
  rcases mem_append.mp he' with he' | he'
  · exact absurd hdomain (hnew e' he')
  · rw [mem_singleton.mp he']
    exact ⟨Nat.le_refl _, Nat.le_refl _⟩

/-- What the arithmetic of the extension computes. -/
theorem extendNode_toNat (hnode : node.base.toNat + node.size.toNat < 2 ^ 64)
    (he : e.rangeEnd < 2 ^ 64) :
    (extendNode node e.baseAddress (e.baseAddress + e.length)).base.toNat =
        min node.base.toNat e.baseAddress.toNat ∧
      (extendNode node e.baseAddress (e.baseAddress + e.length)).base.toNat +
          (extendNode node e.baseAddress (e.baseAddress + e.length)).size.toNat =
        max (node.base.toNat + node.size.toNat) e.rangeEnd := by
  unfold Affinity.rangeEnd at he ⊢
  have hend : (node.base + node.size).toNat = node.base.toNat + node.size.toNat := by
    rw [toNat_add]
    exact Nat.mod_eq_of_lt hnode
  have hend' : (e.baseAddress + e.length).toNat = e.baseAddress.toNat + e.length.toNat := by
    rw [toNat_add]
    exact Nat.mod_eq_of_lt he
  have hnowrap : ¬ node.base + node.size < node.base := by
    rw [lt_def, hend]
    omega
  have hlow : (if e.baseAddress < node.base then e.baseAddress else node.base).toNat =
      min node.base.toNat e.baseAddress.toNat := by
    split <;> next h => rw [lt_def] at h; omega
  have hhigh : (if node.base + node.size < e.baseAddress + e.length then
      e.baseAddress + e.length else node.base + node.size).toNat =
      max (node.base.toNat + node.size.toNat) (e.baseAddress.toNat + e.length.toNat) := by
    split <;> next h => rw [lt_def, hend, hend'] at h; omega
  unfold extendNode
  simp only [if_neg hnowrap]
  refine ⟨hlow, ?_⟩
  rw [toNat_sub_of_le, hlow, hhigh]
  · omega
  · rw [le_def, hlow, hhigh]
    omega

/-- A further range of the domain. -/
theorem IsHull.extend (h : IsHull node ranges) (husable : ∀ e ∈ ranges, e.Usable)
    (he : e.Usable) (hdomain : e.proximityDomain = node.nodeId) :
    IsHull (extendNode node e.baseAddress (e.baseAddress + e.length)) (ranges ++ [e]) := by
  have hmem : e ∈ ranges ++ [e] := mem_append_right _ (mem_singleton_self e)
  obtain ⟨hbase, hend⟩ := extendNode_toNat (h.fits husable) he.2.2
  constructor
  · show ∃ e' ∈ ranges ++ [e], e'.proximityDomain = node.nodeId ∧ _
    rw [hbase]
    rcases Nat.le_total node.base.toNat e.baseAddress.toNat with hle | hle
    · obtain ⟨e', he', hdomain', hlower⟩ := h.lower
      exact ⟨e', mem_append_left _ he', hdomain', by omega⟩
    · exact ⟨e, hmem, hdomain, by omega⟩
  · show ∃ e' ∈ ranges ++ [e], e'.proximityDomain = node.nodeId ∧ _
    rw [hend]
    rcases Nat.le_total e.rangeEnd (node.base.toNat + node.size.toNat) with hle | hle
    · obtain ⟨e', he', hdomain', hupper⟩ := h.upper
      exact ⟨e', mem_append_left _ he', hdomain', by omega⟩
    · exact ⟨e, hmem, hdomain, by omega⟩
  · intro e' he' hdomain'
    rw [hend, hbase]
    rcases mem_append.mp he' with he' | he'
    · have hwithin := h.within e' he' hdomain'
      omega
    · rw [mem_singleton.mp he']
      omega

/-- There is only one hull of a domain. -/
theorem IsHull.unique {node' : Node} (h : IsHull node ranges) (h' : IsHull node' ranges)
    (hid : node.nodeId = node'.nodeId) : node = node' := by
  obtain ⟨low, hlow, hlowId, hlower⟩ := h.lower
  obtain ⟨low', hlow', hlowId', hlower'⟩ := h'.lower
  obtain ⟨high, hhigh, hhighId, hupper⟩ := h.upper
  obtain ⟨high', hhigh', hhighId', hupper'⟩ := h'.upper
  have hlow₁ := (h.within low' hlow' (hlowId'.trans hid.symm)).1
  have hlow₂ := (h'.within low hlow (hlowId.trans hid)).1
  have hhigh₁ := (h.within high' hhigh' (hhighId'.trans hid.symm)).2
  have hhigh₂ := (h'.within high hhigh (hhighId.trans hid)).2
  have hbase : node.base = node'.base := eq_of_toNat_eq (by omega)
  have hsize : node.size = node'.size := by
    apply eq_of_toNat_eq
    rw [hbase] at hupper hhigh₁
    omega
  cases node
  cases node'
  simp only at hid hbase hsize
  rw [hid, hbase, hsize]

end Hull

/-! ## The table -/

def addRange (s : NumaState) (e : Affinity) : NumaState :=
  numaAddOrExtendNode s e.proximityDomain e.baseAddress e.length

/-- The first nodes are the hulls of the first eight domains, in their order. -/
structure Table (s : NumaState) (ranges : List Affinity) : Prop where
  count : s.nodeCount = min numaMaxNodes (firstSeen ranges).length
  ids : ∀ i < s.nodeCount, (firstSeen ranges)[i]? = some (s.nodes i).nodeId
  hulls : ∀ i < s.nodeCount, IsHull (s.nodes i) ranges

section Table

variable {s : NumaState} {ranges : List Affinity} {e : Affinity}

theorem table_reset : Table numaResetState [] :=
  ⟨rfl, fun i hi => absurd hi (Nat.not_lt_zero i), fun i hi => absurd hi (Nat.not_lt_zero i)⟩

/-- The domains seen before stay where they are. -/
theorem getElem?_firstSeen_concat {i : ℕ} (hi : i < (firstSeen ranges).length) (e : Affinity) :
    (firstSeen (ranges ++ [e]))[i]? = (firstSeen ranges)[i]? := by
  rw [firstSeen_concat]
  split
  · rfl
  · exact getElem?_append_left hi

theorem Table.lt_length (h : Table s ranges) {i : ℕ} (hi : i < s.nodeCount) :
    i < (firstSeen ranges).length := by
  rw [h.count] at hi
  omega

/-- Two nodes of the table have different domains. -/
theorem Table.id_inj (h : Table s ranges) {i j : ℕ} (hi : i < s.nodeCount) (hj : j < s.nodeCount)
    (hid : (s.nodes i).nodeId = (s.nodes j).nodeId) : i = j := by
  have hget := (h.ids i hi).trans (hid ▸ (h.ids j hj).symm)
  exact (getElem?_inj (h.lt_length hi) (nodup_firstSeen ranges)).mp hget

theorem Table.find?_eq_some (h : Table s ranges) {domain : BitVec 32} {k : ℕ}
    (hk : k < s.nodeCount) (hid : (s.nodes k).nodeId = domain) :
    ((range s.nodeCount).find? fun i => (s.nodes i).nodeId = domain) = some k := by
  rw [find?_range_eq_some]
  refine ⟨decide_eq_true hid, mem_range.mpr hk, ?_⟩
  intro j hj
  rw [Bool.not_eq_true', decide_eq_false_iff_not]
  intro hidj
  have hjk := h.id_inj (by omega) hk (hidj.trans hid.symm)
  omega

theorem usable_test (he : e.Usable) :
    ¬ (e.length = 0#64 ∨ allOnes 64 - e.length < e.baseAddress) := by
  obtain ⟨_, hpos, hfits⟩ := he
  unfold Affinity.rangeEnd at hfits
  rintro (hzero | hwrap)
  · rw [hzero] at hpos
    exact absurd hpos (by decide)
  · rw [lt_def, toNat_sub, toNat_allOnes] at hwrap
    omega

theorem find?_eq_none {domain : BitVec 32}
    (hnone : ∀ i < s.nodeCount, (s.nodes i).nodeId ≠ domain) :
    ((List.range s.nodeCount).find? fun i => (s.nodes i).nodeId = domain) = none := by
  rw [List.find?_eq_none]
  intro i hi
  rw [decide_eq_true_eq]
  exact hnone i (mem_range.mp hi)

section

variable (h : Table s ranges)

include h

/-- A range of a domain that has a node. -/
theorem Table.addRange_known (husable : ∀ e' ∈ ranges, e'.Usable) (he : e.Usable) {k : ℕ}
    (hk : k < s.nodeCount) (hid : (s.nodes k).nodeId = e.proximityDomain) :
    Table (addRange s e) (ranges ++ [e]) := by
  have hseen : e.proximityDomain ∈ firstSeen ranges := by
    rw [← hid]
    exact mem_of_getElem? (h.ids k hk)
  have hsame : firstSeen (ranges ++ [e]) = firstSeen ranges := by
    rw [firstSeen_concat, if_pos hseen]
  unfold addRange numaAddOrExtendNode
  rw [if_neg (usable_test he), h.find?_eq_some hk hid]
  refine ⟨by rw [hsame]; exact h.count, ?_, ?_⟩
  · intro i hi
    rw [hsame, h.ids i hi]
    by_cases hik : i = k
    · subst hik
      simp only [update_self]
      rfl
    · simp only [update_of_ne hik]
  · intro i hi
    by_cases hik : i = k
    · subst hik
      simp only [update_self]
      exact (h.hulls i hi).extend husable he hid.symm
    · simp only [update_of_ne hik]
      apply (h.hulls i hi).other
      intro hidi
      exact hik (h.id_inj hi hk (hidi.symm.trans hid.symm))

/-- A range of a domain that has no node, while there is room. -/
theorem Table.addRange_new (he : e.Usable)
    (hnone : ∀ i < s.nodeCount, (s.nodes i).nodeId ≠ e.proximityDomain)
    (hroom : s.nodeCount < numaMaxNodes) : Table (addRange s e) (ranges ++ [e]) := by
  have hcount : s.nodeCount = (firstSeen ranges).length := by
    have hmin := h.count
    omega
  have hseen : e.proximityDomain ∉ firstSeen ranges := by
    intro hmem
    obtain ⟨i, hi⟩ := getElem?_of_mem hmem
    have hilt : i < s.nodeCount := by
      rw [hcount]
      exact (List.getElem?_eq_some_iff.mp hi).1
    rw [h.ids i hilt, Option.some_inj] at hi
    exact hnone i hilt hi
  have hnew : firstSeen (ranges ++ [e]) = firstSeen ranges ++ [e.proximityDomain] := by
    rw [firstSeen_concat, if_neg hseen]
  unfold addRange numaAddOrExtendNode
  rw [if_neg (usable_test he), find?_eq_none hnone]
  simp only
  rw [if_neg (Nat.not_le.mpr hroom)]
  refine ⟨?_, ?_, ?_⟩
  · rw [hnew, length_append, length_singleton, ← hcount, Nat.min_eq_right hroom]
  · intro i hi
    simp only at hi ⊢
    rw [hnew]
    by_cases hicount : i = s.nodeCount
    · subst hicount
      rw [update_self, hcount, getElem?_append_right (Nat.le_refl _), Nat.sub_self]
      rfl
    · rw [update_of_ne hicount,
        getElem?_append_left (by rw [← hcount]; omega), h.ids i (by omega)]
  · intro i hi
    simp only at hi ⊢
    by_cases hicount : i = s.nodeCount
    · subst hicount
      rw [update_self]
      apply isHull_single
      intro e' he' hdomain
      exact hseen (mem_firstSeen_iff.mpr ⟨e', he', hdomain⟩)
    · rw [update_of_ne hicount]
      apply (h.hulls i (by omega)).other
      exact fun hid => hnone i (by omega) hid.symm

/-- A range of a ninth domain changes nothing. -/
theorem Table.addRange_full (he : e.Usable)
    (hnone : ∀ i < s.nodeCount, (s.nodes i).nodeId ≠ e.proximityDomain)
    (hfull : numaMaxNodes ≤ s.nodeCount) : Table (addRange s e) (ranges ++ [e]) := by
  have hle := length_firstSeen_le ranges e
  have hmin := h.count
  unfold addRange numaAddOrExtendNode
  rw [if_neg (usable_test he), find?_eq_none hnone]
  simp only
  rw [if_pos hfull]
  refine ⟨by omega, ?_, ?_⟩
  · intro i hi
    rw [getElem?_firstSeen_concat (h.lt_length hi), h.ids i hi]
  · intro i hi
    exact (h.hulls i hi).other fun hid => hnone i hi hid.symm

theorem Table.addRange (husable : ∀ e' ∈ ranges, e'.Usable) (he : e.Usable) :
    Table (addRange s e) (ranges ++ [e]) := by
  by_cases hknown : ∃ k, k < s.nodeCount ∧ (s.nodes k).nodeId = e.proximityDomain
  · obtain ⟨k, hk, hid⟩ := hknown
    exact h.addRange_known husable he hk hid
  · have hnone : ∀ i < s.nodeCount, (s.nodes i).nodeId ≠ e.proximityDomain :=
      fun i hi hid => hknown ⟨i, hi, hid⟩
    rcases Nat.lt_or_ge s.nodeCount numaMaxNodes with hroom | hfull
    · exact h.addRange_new he hnone hroom
    · exact h.addRange_full he hnone hfull

end

/-- The table after a run of usable ranges. -/
theorem table_foldl (hranges : ∀ e ∈ ranges, e.Usable) :
    Table (ranges.foldl Numa.addRange numaResetState) ranges := by
  induction ranges using reverseRecOn with
  | nil => exact table_reset
  | append_singleton ranges e ih =>
    rw [foldl_append, foldl_cons, foldl_nil]
    have husable : ∀ e' ∈ ranges, e'.Usable :=
      fun e' he' => hranges e' (mem_append_left _ he')
    apply (ih husable).addRange husable
    exact hranges e (mem_append_right _ (mem_singleton_self e))

end Table

/-! ## Arbitrary calls -/

/-- The arguments of a call: domain, base and size. -/
abbrev Triple := BitVec 32 × BitVec 64 × BitVec 64

/-- The state after a sequence of calls. -/
def addAll (triples : List Triple) : NumaState :=
  triples.foldl (fun s t => numaAddOrExtendNode s t.1 t.2.1 t.2.2) numaResetState

/-- The call as an enabled range. -/
def rangeOf (t : Triple) : Affinity := ⟨t.1, t.2.1, t.2.2, acpiSratMemEnabled⟩

/-- The ranges that are not empty and do not wrap around. -/
def acceptedRanges (triples : List Triple) : List Affinity :=
  (triples.map rangeOf).filter fun e => e.Usable

def nodeSet (s : NumaState) : Set Node := {node | ∃ i < s.nodeCount, s.nodes i = node}

/-- What the table has to hold after the calls. -/
structure TableLaw (triples : List Triple) (s : NumaState) : Prop where
  domains : (range s.nodeCount).map (fun i => (s.nodes i).nodeId) =
    (firstSeen (acceptedRanges triples)).take 8
  distinct : ∀ i < s.nodeCount, ∀ j < s.nodeCount,
    (s.nodes i).nodeId = (s.nodes j).nodeId → i = j
  fits : ∀ i < s.nodeCount, (s.nodes i).base.toNat + (s.nodes i).size.toNat < 2 ^ 64
  hulls : ∀ i < s.nodeCount, IsHull (s.nodes i) (acceptedRanges triples)

section Triples

variable {triples : List Triple}

theorem usable_of_mem_acceptedRanges : ∀ e ∈ acceptedRanges triples, e.Usable := by
  intro e he
  exact of_decide_eq_true (mem_filter.mp he).2

/-- A call that is not accepted does nothing. -/
theorem addRange_of_not_usable {t : Triple} (h : ¬ (rangeOf t).Usable) (s : NumaState) :
    addRange s (rangeOf t) = s := by
  unfold addRange numaAddOrExtendNode
  apply if_pos
  by_contra htest
  rw [not_or] at htest
  have henabled : acpiSratMemEnabled &&& acpiSratMemEnabled ≠ 0#32 := by decide
  refine h ⟨henabled, ?_, ?_⟩
  · rw [Nat.pos_iff_ne_zero]
    exact fun hzero => htest.1 (eq_of_toNat_eq hzero)
  · have hwrap := htest.2
    have hlt := (rangeOf t).length.isLt
    rw [lt_def, toNat_sub, toNat_allOnes] at hwrap
    unfold Affinity.rangeEnd
    omega

theorem addAll_eq (triples : List Triple) :
    addAll triples = (acceptedRanges triples).foldl addRange numaResetState := by
  unfold addAll acceptedRanges
  generalize numaResetState = s
  induction triples generalizing s with
  | nil => rfl
  | cons t triples ih =>
    rw [foldl_cons, map_cons, ih]
    by_cases husable : (rangeOf t).Usable
    · rw [filter_cons_of_pos (by simpa using husable), foldl_cons]
      rfl
    · rw [filter_cons_of_neg (by simpa using husable)]
      exact congrArg (fun s => foldl addRange s _) (addRange_of_not_usable husable s)

theorem table_addAll (triples : List Triple) : Table (addAll triples) (acceptedRanges triples) := by
  rw [addAll_eq]
  exact table_foldl usable_of_mem_acceptedRanges

theorem Table.law {s : NumaState} (h : Table s (acceptedRanges triples)) : TableLaw triples s where
  domains := by
    apply ext_getElem?
    intro i
    rw [getElem?_map, getElem?_take]
    have hmin := h.count
    have hmax : numaMaxNodes = 8 := rfl
    by_cases hi : i < s.nodeCount
    · rw [getElem?_range hi, if_pos (by omega), h.ids i hi]
      rfl
    · rw [List.getElem?_eq_none (by rw [length_range]; omega)]
      by_cases hlt : i < 8
      · rw [if_pos hlt, List.getElem?_eq_none (by omega)]
        rfl
      · rw [if_neg hlt]
        rfl
  distinct _ hi _ hj hid := h.id_inj hi hj hid
  fits i hi := (h.hulls i hi).fits usable_of_mem_acceptedRanges
  hulls := h.hulls

/-- With at most eight domains the nodes are all the hulls there are. -/
theorem Table.mem_nodeSet_iff {s : NumaState} {ranges : List Affinity} (h : Table s ranges)
    (hroom : (firstSeen ranges).length ≤ 8) {node : Node} :
    node ∈ nodeSet s ↔ IsHull node ranges := by
  constructor
  · rintro ⟨i, hi, rfl⟩
    exact h.hulls i hi
  · intro hhull
    obtain ⟨e, he, hid, _⟩ := hhull.lower
    obtain ⟨i, hget⟩ := getElem?_of_mem (mem_firstSeen_iff.mpr ⟨e, he, hid⟩)
    have hi : i < s.nodeCount := by
      rw [h.count, Nat.min_eq_right (show (firstSeen ranges).length ≤ numaMaxNodes from hroom)]
      exact (List.getElem?_eq_some_iff.mp hget).1
    rw [h.ids i hi, Option.some_inj] at hget
    exact ⟨i, hi, (h.hulls i hi).unique hhull hget⟩

/-- The hull of a domain only depends on which ranges there are. -/
theorem isHull_congr {node : Node} {ranges ranges' : List Affinity}
    (h : ∀ e, e ∈ ranges ↔ e ∈ ranges') : IsHull node ranges ↔ IsHull node ranges' := by
  have hmono : ∀ {l l' : List Affinity}, (∀ e, e ∈ l ↔ e ∈ l') →
      IsHull node l → IsHull node l' := by
    rintro l l' h ⟨⟨low, hlow⟩, ⟨high, hhigh⟩, hwithin⟩
    exact ⟨⟨low, (h low).mp hlow.1, hlow.2⟩, ⟨high, (h high).mp hhigh.1, hhigh.2⟩,
      fun e he => hwithin e ((h e).mpr he)⟩
  exact ⟨hmono h, hmono fun e => (h e).symm⟩

theorem acceptedRanges_perm {triples' : List Triple} (h : triples'.Perm triples) :
    (acceptedRanges triples').Perm (acceptedRanges triples) :=
  (h.map rangeOf).filter _

theorem length_firstSeen_perm {ranges ranges' : List Affinity} (h : ranges'.Perm ranges) :
    (firstSeen ranges').length = (firstSeen ranges).length := by
  apply List.Perm.length_eq
  rw [perm_ext_iff_of_nodup (nodup_firstSeen _) (nodup_firstSeen _)]
  intro d
  rw [mem_firstSeen_iff, mem_firstSeen_iff]
  exact exists_congr fun e => and_congr_left' h.mem_iff

/-- The table after any sequence of calls: the hulls of the first eight domains; and if there are
at most eight domains, the order of the calls does not matter. -/
theorem numa_table_law (triples : List Triple) :
    TableLaw triples (addAll triples) ∧
      ((firstSeen (acceptedRanges triples)).length ≤ 8 → ∀ triples', triples'.Perm triples →
        nodeSet (addAll triples') = nodeSet (addAll triples)) := by
  refine ⟨(table_addAll triples).law, fun hroom triples' hperm => ?_⟩
  have haccepted := acceptedRanges_perm hperm
  ext node
  rw [(table_addAll triples).mem_nodeSet_iff hroom,
    (table_addAll triples').mem_nodeSet_iff (by rw [length_firstSeen_perm haccepted]; exact hroom)]
  exact isHull_congr fun e => haccepted.mem_iff

end Triples

end GnuOS.Numa
