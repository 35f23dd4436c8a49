import GnuOS.Boot.Tags

/-!
# The answers of the three functions

On a block that is the serialisation of a list of tags the three functions return what the list
says, unless a sum of addresses overflows or the block ends at the end of the address space.
-/

namespace GnuOS.Boot

open GnuOS.Lib List
open BitVec hiding and_self not_or

variable {b : BootInfo} {o k : ℕ} {t : Tag} {tags : List Tag}

theorem foldl_positions {σ : Type} (f : σ → Tag → σ) (o : ℕ) (tags : List Tag) (s : σ) :
    (positions o tags).foldl (fun s p => f s p.2) s = tags.foldl f s := by
  induction tags generalizing o s with
  | nil => rfl
  | cons t tags ih => exact ih (o + t.paddedSize) (f s t)

/-! ## The largest region -/

/-- What the loop does with an entry. -/
def MmapEntry.improve (best : Available) (e : MmapEntry) : Available :=
  if e.type = multibootMemoryAvailable ∧ best.size < e.len then ⟨e.addr, e.len⟩ else best

theorem TagBytes.improve_eq (h : TagBytes b o t) (hk : 8 + k + 24 ≤ t.size) (best : Available) :
    improve b (o + 8 + k) best = (t.entryAt k).improve best := by
  have haddr : b.word64 (o + 8 + k) = t.field k 8 := h.load (by omega)
  have hlen : b.word64 (o + 8 + k + 8) = t.field (k + 8) 8 := by
    rw [Nat.add_assoc]
    exact h.load (by omega)
  have htype : b.word32 (o + 8 + k + 16) = t.field (k + 16) 4 := by
    rw [Nat.add_assoc]
    exact h.load (by omega)
  have hlt : t.field (k + 16) 4 < 2 ^ 32 := htype ▸ b.word32_lt _
  have havailable : BitVec.ofNat 32 (t.field (k + 16) 4) = multibootMemoryAvailable ↔
      t.field (k + 16) 4 = 1 := ofNat_eq_iff hlt (by decide)
  unfold improve MmapEntry.improve Tag.entryAt
  simp only [haddr, hlen, htype, havailable]

theorem TagBytes.improveAll_eq (h : TagBytes b o t) {n : ℕ} (hge : 24 ≤ t.entrySize)
    (hfit : 8 + k + n * t.entrySize ≤ t.size) (best : Available) :
    improveAll b t.entrySize n (o + 8 + k) best =
      ((range n).map fun i => t.entryAt (k + i * t.entrySize)).foldl MmapEntry.improve
        best := by
  induction n generalizing k best with
  | zero => rfl
  | succ n ih =>
    rw [Nat.succ_mul] at hfit
    have hshift : (fun i => t.entryAt (k + (i + 1) * t.entrySize)) =
        fun i => t.entryAt (k + t.entrySize + i * t.entrySize) := by
      funext i
      rw [Nat.succ_mul, Nat.add_comm (i * t.entrySize), Nat.add_assoc]
    rw [improveAll, h.improve_eq (by omega), Nat.add_assoc (o + 8), ih (by omega),
      range_succ_eq_map, map_cons, foldl_cons, map_map, Nat.zero_mul,
      Nat.add_zero]
    simp only [Function.comp_def, Nat.succ_eq_add_one, hshift]

/-- The body of the loop takes all entries of the tag into account. -/
theorem TagBytes.mmapBody_eq (h : TagBytes b o t) (hb : b.InSpace) (hpassed : b.Passed o)
    (hentry : t.IsMmap → 24 ≤ t.entrySize)
    (hspace : b.IsMmap o → 24 ≤ b.entrySize o → b.EntriesInSpace o) {g : ℕ}
    (hg : b.totalSize ≤ g) (best : Available) :
    b.onTag (mmapBody b g) o best = .value (.next (t.entries.foldl MmapEntry.improve best)) := by
  by_cases hmmap : t.IsMmap
  · have hb' : b.IsMmap o := h.isMmap_iff.mpr hmmap
    have hsize := h.entrySize_eq hmmap
    have hge : 24 ≤ b.entrySize o := by
      rw [hsize]
      exact hentry hmmap
    have hcount : b.entryCount o = t.entryCount := by
      rw [BootInfo.entryCount, h.size, hsize, Tag.entryCount]
    have hspec := (BootInfo.entryCount_spec hb' hge).1
    rw [hcount, hsize, h.size] at hspec
    rw [mmapBody_entries hb hpassed hb' hge (hspace hb' hge) hg, hsize, hcount,
      show o + 16 = o + 8 + 8 from rfl, h.improveAll_eq (hentry hmmap) (by omega), Tag.entries,
      if_pos hmmap]
  · rw [Boot.mmapBody_eq hb hpassed, if_neg (fun hb' => hmmap (h.isMmap_iff.mp hb')), Tag.entries,
      if_neg hmmap]
    rfl

/-- The loop over the entries keeps the first of the longest. -/
theorem foldl_improve (entries : List MmapEntry) :
    entries.foldl MmapEntry.improve ⟨0#64, 0#64⟩ =
      (((entries.filter fun e => e.Candidate).argmax fun e => e.len.toNat).map
        MmapEntry.region).getD ⟨0#64, 0#64⟩ := by
  induction entries using reverseRecOn with
  | nil => rfl
  | append_singleton entries e ih =>
    rw [foldl_append, foldl_cons, foldl_nil, ih, filter_append]
    by_cases he : e.Candidate
    · have hpos : 0#64 < e.len := by
        rw [lt_def]
        exact Nat.pos_of_ne_zero fun hzero => he.2 (eq_of_toNat_eq hzero)
      rw [show [e].filter (fun e => decide e.Candidate) = [e] by simp [he], argmax_concat]
      cases (entries.filter fun e => e.Candidate).argmax fun e => e.len.toNat with
      | none => simp only [MmapEntry.improve, Option.map_none, Option.getD_none, he.1, hpos,
          and_self, if_true, Option.map_some, Option.getD_some, MmapEntry.region]
      | some c =>
        simp only [MmapEntry.improve, Option.map_some, Option.getD_some, he.1, true_and,
          MmapEntry.region, lt_def]
        split
        · rfl
        · rfl
    · have hkeep (best : Available) : e.improve best = best := by
        rw [MmapEntry.improve, if_neg]
        rintro ⟨htype, hlt⟩
        refine he ⟨htype, ?_⟩
        intro hzero
        rw [hzero, lt_def] at hlt
        exact Nat.not_lt_zero _ hlt
      rw [show [e].filter (fun e => decide e.Candidate) = [] by simp [he], append_nil]
      exact hkeep _

theorem largestResult_foldl (tags : List Tag) :
    largestResult ((tags.flatMap Tag.entries).foldl MmapEntry.improve ⟨0#64, 0#64⟩) =
      largestAvailable tags := by
  rw [foldl_improve, largestAvailable, availableEntries]
  cases hmax : ((tags.flatMap Tag.entries).filter fun e => e.Candidate).argmax
      fun e => e.len.toNat with
  | none => rfl
  | some c =>
    have hcandidate : c.Candidate := by
      simpa using (mem_filter.mp (argmax_mem hmax)).2
    exact if_neg hcandidate.2

/-! ## The framebuffer -/

/-- The return value and what `out_info` points to, for a framebuffer tag. -/
def Tag.reported (t : Tag) : Bool × FramebufferInfo :=
  match t.framebuffer with
  | none => (false, t.framebufferInfo)
  | some info => (true, info)

theorem Tag.reported_eq (t : Tag) :
    (if t.reported.1 then some t.reported.2 else none) = t.framebuffer := by
  rcases hframebuffer : t.framebuffer with _ | info
  · simp [Tag.reported, hframebuffer]
  · simp [Tag.reported, hframebuffer]

theorem TagBytes.framebufferAt_eq (h : TagBytes b o t) (hsize : 32 ≤ t.size) :
    framebufferAt b o = t.framebufferInfo := by
  have haddress : b.word64 (o + 8) = t.field 0 8 := h.load (k := 0) (by omega)
  have hpitch : b.word32 (o + 16) = t.field 8 4 := h.load (k := 8) (by omega)
  have hwidth : b.word32 (o + 20) = t.field 12 4 := h.load (k := 12) (by omega)
  have hheight : b.word32 (o + 24) = t.field 16 4 := h.load (k := 16) (by omega)
  have hbpp : b.word8 (o + 28) = t.field 20 1 := h.load (k := 20) (by omega)
  have htype : b.word8 (o + 29) = t.field 21 1 := h.load (k := 21) (by omega)
  rw [framebufferAt, haddress, hpitch, hwidth, hheight, hbpp, htype]
  rfl

theorem TagBytes.coloursAt_eq (h : TagBytes b o t) (hsize : 38 ≤ t.size) :
    coloursAt b (o + 32) (framebufferAt b o) = t.colours := by
  have hred : b.word8 (o + 32) = t.field 24 1 := h.load (k := 24) (by omega)
  have hredMask : b.word8 (o + 32 + 1) = t.field 25 1 := h.load (k := 25) (by omega)
  have hgreen : b.word8 (o + 32 + 2) = t.field 26 1 := h.load (k := 26) (by omega)
  have hgreenMask : b.word8 (o + 32 + 3) = t.field 27 1 := h.load (k := 27) (by omega)
  have hblue : b.word8 (o + 32 + 4) = t.field 28 1 := h.load (k := 28) (by omega)
  have hblueMask : b.word8 (o + 32 + 5) = t.field 29 1 := h.load (k := 29) (by omega)
  rw [coloursAt, hred, hredMask, hgreen, hgreenMask, hblue, hblueMask,
    h.framebufferAt_eq (by omega)]
  rfl

/-- The body of the loop reports the first framebuffer tag and skips the other tags. -/
theorem TagBytes.framebufferBody_eq (h : TagBytes b o t)
    (hend : b.addr.toNat + b.totalSize < 2 ^ 64) (hpassed : b.Passed o)
    (hspace : b.IsFramebuffer o → ColoursInSpace b o) (info : FramebufferInfo) :
    b.onTag (framebufferBody b) o info =
      .value (if t.IsFramebuffer then .ret t.reported else .next info) := by
  have hb : b.InSpace := le_of_lt hend
  have htag := hpassed.tag_le
  by_cases hfb : t.IsFramebuffer
  swap
  · rw [Boot.framebufferBody_eq hb hpassed, if_neg (fun hb' => hfb (h.isFramebuffer_iff.mp hb')),
      if_neg hfb]
  have hfb' : b.IsFramebuffer o := h.isFramebuffer_iff.mpr hfb
  have htype := framebufferAt_type_iff b o
  rw [h.framebufferAt_eq hfb.2] at htype
  rw [if_pos hfb, Tag.reported, Tag.framebuffer]
  by_cases hrgb : b.word8 (o + 29) = 1
  · have hcolours := hspace hfb' hrgb
    rw [if_pos (htype.mpr hrgb)]
    by_cases hshort : t.size < 38
    · have htest : b.addrAt (o + b.tagSize o) < b.addrAt (o + 38) := by
        rw [BootInfo.addrAt_lt_iff (by omega) hcolours, h.size]
        omega
      rw [Boot.framebufferBody_eq hb hpassed, if_pos hfb', if_pos hrgb, if_pos htest,
        h.framebufferAt_eq hfb.2, if_pos hshort]
    · rw [framebufferBody_rgb hb hpassed hfb' hrgb (by rw [h.size]; omega) (by omega),
        h.coloursAt_eq (by omega), if_neg hshort]
  · rw [Boot.framebufferBody_eq hb hpassed, if_pos hfb', if_neg hrgb, h.framebufferAt_eq hfb.2,
      if_neg (fun hrgb' => hrgb (htype.mp hrgb'))]

theorem runTags_framebuffer (o : ℕ) (tags : List Tag) (info : FramebufferInfo) :
    runTags (fun _ t info => if t.IsFramebuffer then .ret t.reported else .next info)
        (fun info => (false, info)) o tags info =
      match tags.find? fun t => t.IsFramebuffer with
      | none => (false, info)
      | some t => t.reported := by
  induction tags generalizing o with
  | nil => rfl
  | cons t tags ih =>
    by_cases hfb : t.IsFramebuffer
    · rw [find?_cons_of_pos (by simpa using hfb)]
      simp only [runTags, if_pos hfb]
    · rw [find?_cons_of_neg (by simpa using hfb), ← ih (o + t.paddedSize)]
      simp only [runTags, if_neg hfb]

/-! ## The ACPI root pointer -/

/-- The address of the payload of a tag, given its offset. -/
def payloadAddr (addr : BitVec 64) (p : ℕ × Tag) : BitVec 64 := addr + BitVec.ofNat 64 (p.1 + 8)

/-- What the loop does with a tag. -/
def rsdpStep (addr : BitVec 64) (r : Rsdp) (p : ℕ × Tag) : Rsdp :=
  if p.2.IsOldRsdp then { r with oldRsdp := payloadAddr addr p }
  else if p.2.IsNewRsdp then
    { r with newRsdp := payloadAddr addr p, newRevision := p.2.revision }
  else r

theorem Tag.IsOldRsdp.not_new (h : t.IsOldRsdp) : ¬ t.IsNewRsdp := by
  rintro ⟨htype, _⟩
  rw [h.1] at htype
  exact absurd htype (by decide)

theorem TagBytes.rsdpBody_eq (h : TagBytes b o t) (hb : b.InSpace) (hpassed : b.Passed o)
    (r : Rsdp) :
    b.onTag (rsdpBody b) o r = .value (.next (rsdpStep b.addr r (o, t))) := by
  have htag := hpassed.tag_le
  have hsize := h.size
  have htype : BitVec.ofNat 32 (b.tagType o) = t.type := by
    rw [h.type, ofNat_toNat, setWidth_eq]
  have hold : 28#32 ≤ BitVec.ofNat 32 (b.tagSize o) ↔ 28 ≤ t.size := by
    rw [← hsize]
    exact b.le_ofNat_tagSize o (n := 28) (by omega)
  have hnew : 44#32 ≤ BitVec.ofNat 32 (b.tagSize o) ↔ 44 ≤ t.size := by
    rw [← hsize]
    exact b.le_ofNat_tagSize o (n := 44) (by omega)
  have haddr : b.addrAt o + 8#64 = payloadAddr b.addr (o, t) := b.addrAt_add o 8
  unfold BootInfo.onTag rsdpBody rsdpStep
  rw [htype, haddr]
  by_cases hisOld : t.type = multibootTagTypeAcpiOld
  · have hnotNew : ¬ t.IsNewRsdp := by
      rintro ⟨htype', _⟩
      rw [hisOld] at htype'
      exact absurd htype' (by decide)
    rw [if_pos hisOld, if_neg hnotNew]
    by_cases hlong : 28 ≤ t.size
    · rw [if_pos (hold.mpr hlong), if_pos ⟨hisOld, hlong⟩]
    · rw [if_neg (fun hle => hlong (hold.mp hle)), if_neg (fun h' : t.IsOldRsdp => hlong h'.2)]
  · rw [if_neg hisOld, if_neg (fun h' : t.IsOldRsdp => hisOld h'.1)]
    by_cases hisNew : t.IsNewRsdp
    · have hlong := hisNew.2
      have hread : b.read8 (payloadAddr b.addr (o, t) + 15#64) = .value t.revision := by
        rw [show payloadAddr b.addr (o, t) + 15#64 = b.addrAt (o + 8 + 15) from
          b.addrAt_add (o + 8) 15, BootInfo.read8_inside hb (by omega), Tag.revision,
          ← h.load (by omega)]
        rfl
      rw [if_pos ⟨hisNew.1, hnew.mpr hlong⟩, if_pos hisNew, hread]
      rfl
    · rw [if_neg (fun h' => hisNew ⟨h'.1, hnew.mp h'.2⟩), if_neg hisNew]

/-- The loop keeps the last root pointer of each kind. -/
theorem foldl_rsdpStep (addr : BitVec 64) (ps : List (ℕ × Tag)) :
    ps.foldl (rsdpStep addr) ⟨0#64, 0#64, 0#8⟩ =
      ⟨((ps.filter fun p => p.2.IsOldRsdp).getLast?.map (payloadAddr addr)).getD 0#64,
        ((ps.filter fun p => p.2.IsNewRsdp).getLast?.map (payloadAddr addr)).getD 0#64,
        ((ps.filter fun p => p.2.IsNewRsdp).getLast?.map fun p => p.2.revision).getD 0#8⟩ := by
  induction ps using reverseRecOn with
  | nil => rfl
  | append_singleton ps p ih =>
    rw [foldl_append, foldl_cons, foldl_nil, ih, rsdpStep, filter_append,
      filter_append]
    by_cases hold : p.2.IsOldRsdp
    · simp [hold, hold.not_new]
    · by_cases hnew : p.2.IsNewRsdp
      · simp [hold, hnew]
      · simp [hold, hnew]

/-- The tag is one of the list, and large enough for a root pointer of its kind. -/
theorem mem_of_rsdpTag {p : ℕ × Tag} (h : rsdpTag tags = some p) :
    p ∈ positions 8 tags ∧ (p.2.IsNewRsdp ∨ p.2.IsOldRsdp) := by
  rcases Option.or_eq_some_iff.mp h with hnew | ⟨_, hold⟩
  · have hmem := mem_filter.mp (mem_of_getLast? hnew)
    exact ⟨hmem.1, .inl (by simpa using hmem.2)⟩
  · have hmem := mem_filter.mp (mem_of_getLast? hold)
    exact ⟨hmem.1, .inr (by simpa using hmem.2)⟩

theorem rsdpResult_foldl {addr : BitVec 64} (tags : List Tag)
    (hne : ∀ p ∈ positions 8 tags, payloadAddr addr p ≠ 0#64) :
    rsdpResult ((positions 8 tags).foldl (rsdpStep addr) ⟨0#64, 0#64, 0#8⟩) =
      acpiRsdp addr tags := by
  rw [foldl_rsdpStep, acpiRsdp, rsdpTag]
  cases hnew : ((positions 8 tags).filter fun p => p.2.IsNewRsdp).getLast? with
  | some p =>
    have hmem := mem_filter.mp (mem_of_getLast? hnew)
    have hisNew : p.2.IsNewRsdp := by simpa using hmem.2
    simp only [rsdpResult, Option.map_some, Option.getD_some, Option.some_or, if_pos hisNew,
      ne_eq, hne p hmem.1, not_false_eq_true, if_true]
    rfl
  | none =>
    cases hold : ((positions 8 tags).filter fun p => p.2.IsOldRsdp).getLast? with
    | none => rfl
    | some p =>
      have hmem := mem_filter.mp (mem_of_getLast? hold)
      have hisOld : p.2.IsOldRsdp := by simpa using hmem.2
      simp only [rsdpResult, Option.map_none, Option.getD_none, Option.map_some, Option.getD_some,
        Option.none_or, if_neg hisOld.not_new, ne_eq, hne p hmem.1, not_true_eq_false,
        not_false_eq_true, if_false, if_true]
      rfl

/-! ## The three functions -/

/-- The functions return what the list of tags says; the framebuffer only if the value is 1. -/
structure Answers (b : BootInfo) (tags : List Tag) : Prop where
  largest : Outcome.Returns (multiboot2FindLargestAvailableRegion b true) (largestAvailable tags)
  framebuffer : ∀ info, ∃ r, Outcome.Returns (multiboot2FindFramebuffer b (some info)) r ∧
    (if r.1 then r.2 else none) = firstFramebuffer tags
  rsdp : Outcome.Returns (multiboot2FindAcpiRsdp b true) (acpiRsdp b.addr tags)

/-- There is nothing to be found. -/
structure Nothing (addr : BitVec 64) (tags : List Tag) : Prop where
  largest : largestAvailable tags = none
  framebuffer : firstFramebuffer tags = none
  rsdp : acpiRsdp addr tags = none

namespace Serialises

section

variable (h : Serialises b tags) (hend : b.addr.toNat + b.totalSize < 2 ^ 64)

include h hend

theorem payloadAddr_ne {p : ℕ × Tag} (hp : p ∈ positions 8 tags) : payloadAddr b.addr p ≠ 0#64 := by
  obtain ⟨_, _, hfits⟩ := h.layout.of_mem_positions hp
  have hge := p.2.size_ge
  have hle := p.2.size_le_paddedSize
  intro hzero
  have hnat : (payloadAddr b.addr p).toNat = b.addr.toNat + (p.1 + 8) :=
    Memory.toNat_addr (by omega)
  rw [hzero, toNat_ofNat] at hnat
  omega

variable (hnull : b.addr ≠ 0#64)

include hnull

theorem largest_returns (hwalk : Walkable b) :
    Outcome.Returns (multiboot2FindLargestAvailableRegion b true) (largestAvailable tags) := by
  have htotal := h.layout.le
  refine ⟨b.totalSize + tags.length + 1, ?_⟩
  intro fuel hfuel
  have hbody : ∀ o t best, t ∈ tags → b.TagAt b.MmapGoesOn o → b.Passed o → TagBytes b o t →
      b.onTag (mmapBody b fuel) o best =
        .value (.next (t.entries.foldl MmapEntry.improve best)) ∧
        ∀ best', Flow.next (t.entries.foldl MmapEntry.improve best) =
          (.next best' : Flow Available (Option Available)) → b.MmapGoesOn o := by
    intro o t best ht ho hpassed hbytes
    refine ⟨hbytes.mmapBody_eq h.inSpace hpassed (h.entries t ht) (hwalk.entries o ho hpassed)
      (by omega) best, ?_⟩
    intro _ _ hmmap
    have hmmap' := hbytes.isMmap_iff.mp hmmap
    rw [hbytes.entrySize_eq hmmap']
    exact h.entries t ht hmmap'
  rw [multiboot2FindLargestAvailableRegion, if_neg (by simp [hnull]),
    walkBlock_eq h.inSpace hwalk.header, if_neg (by omega),
    h.layout.walkFrom_eq hwalk.steady (.first htotal hend) hbody (by omega), runTags_next,
    foldl_positions (fun best t => t.entries.foldl MmapEntry.improve best), ← foldl_flatMap]
  exact congrArg Outcome.value (largestResult_foldl tags)

theorem framebuffer_returns (hwalk : Walkable b) (info : FramebufferInfo) :
    ∃ r, Outcome.Returns (multiboot2FindFramebuffer b (some info)) r ∧
      (if r.1 then r.2 else none) = firstFramebuffer tags := by
  have htotal := h.layout.le
  have hbody : ∀ o t info, t ∈ tags → b.TagAt (fun o => ¬ b.IsFramebuffer o) o → b.Passed o →
      TagBytes b o t →
      b.onTag (framebufferBody b) o info =
        .value (if t.IsFramebuffer then .ret t.reported else .next info) ∧
        ∀ info', (if t.IsFramebuffer then .ret t.reported else .next info) =
          (.next info' : Flow FramebufferInfo (Bool × FramebufferInfo)) → ¬ b.IsFramebuffer o := by
    intro o t info ht ho hpassed hbytes
    refine ⟨hbytes.framebufferBody_eq hend hpassed (hwalk.colours o ho hpassed) info, ?_⟩
    intro info' hnext hfb
    rw [if_pos (hbytes.isFramebuffer_iff.mp hfb)] at hnext
    cases hnext
  have hreturns : Outcome.Returns (multiboot2FindFramebuffer b (some info))
      (match tags.find? fun t => t.IsFramebuffer with
        | none => (false, some info)
        | some t => (t.reported.1, some t.reported.2)) := by
    refine ⟨tags.length + 1, ?_⟩
    intro fuel hfuel
    rw [multiboot2FindFramebuffer, if_neg hnull, walkBlock_eq h.inSpace hwalk.header,
      if_neg (by omega), h.layout.walkFrom_eq hwalk.steady (.first htotal hend) hbody (by omega),
      runTags_framebuffer]
    cases tags.find? fun t => t.IsFramebuffer with
    | none => rfl
    | some t => rfl
  refine ⟨_, hreturns, ?_⟩
  rw [firstFramebuffer]
  cases tags.find? fun t => t.IsFramebuffer with
  | none => rfl
  | some t => exact t.reported_eq

theorem rsdp_returns (hsteady : Steady b) :
    Outcome.Returns (multiboot2FindAcpiRsdp b true) (acpiRsdp b.addr tags) := by
  have htotal := h.layout.le
  refine ⟨tags.length + 1, ?_⟩
  intro fuel hfuel
  have hbody : ∀ o t r, t ∈ tags → b.TagAt (fun _ => True) o → b.Passed o → TagBytes b o t →
      b.onTag (rsdpBody b) o r = .value (.next (rsdpStep b.addr r (o, t))) ∧
        ∀ r', Flow.next (rsdpStep b.addr r (o, t)) =
          (.next r' : Flow Rsdp (Option (BitVec 64 × BitVec 8))) → True := by
    intro o t r _ _ hpassed hbytes
    exact ⟨hbytes.rsdpBody_eq h.inSpace hpassed r, fun _ _ => trivial⟩
  rw [multiboot2FindAcpiRsdp, if_neg (by simp [hnull]), walkBlock_eq h.inSpace (by omega),
    if_neg (by omega), h.layout.walkFrom_eq hsteady (.first htotal hend) hbody (by omega),
    runTags_next, rsdpResult_foldl tags fun p hp => h.payloadAddr_ne hend hp]

end

end Serialises

/-- At address 0 and at the end of the address space nothing is found. -/
theorem nothing_returns (hheader : 4 ≤ b.totalSize)
    (h : b.addr = 0#64 ∨ b.addr.toNat + b.totalSize = 2 ^ 64) :
    Outcome.Returns (multiboot2FindLargestAvailableRegion b true) none ∧
      (∀ info, Outcome.Returns (multiboot2FindFramebuffer b (some info)) (false, some info)) ∧
      Outcome.Returns (multiboot2FindAcpiRsdp b true) none := by
  by_cases hnull : b.addr = 0#64
  · refine ⟨⟨0, fun fuel _ => ?_⟩, fun info => ⟨0, fun fuel _ => ?_⟩, ⟨0, fun fuel _ => ?_⟩⟩
    · rw [multiboot2FindLargestAvailableRegion, if_pos (.inr hnull)]
    · rw [multiboot2FindFramebuffer, if_pos hnull]
    · rw [multiboot2FindAcpiRsdp, if_pos (.inr hnull)]
  have htop := h.resolve_left hnull
  refine ⟨⟨2, fun fuel hfuel => ?_⟩, fun info => ⟨2, fun fuel hfuel => ?_⟩,
    ⟨2, fun fuel hfuel => ?_⟩⟩
  · rw [multiboot2FindLargestAvailableRegion, if_neg (by simp [hnull])]
    exact walkBlock_at_top htop hheader mmapBody_empty (by rfl) hfuel
  · have hempty : ∀ (_ : ℕ) a type s, framebufferBody b a type 8#32 s = .value (.next s) :=
      fun _ => framebufferBody_empty
    rw [multiboot2FindFramebuffer, if_neg hnull, walkBlock_at_top htop hheader hempty rfl hfuel]
    rfl
  · rw [multiboot2FindAcpiRsdp, if_neg (by simp [hnull])]
    exact walkBlock_at_top htop hheader (fun _ => rsdpBody_empty) (by rfl) hfuel

/-- A root pointer that was found is the payload of a tag. -/
theorem Serialises.rsdpTag_of_returns (h : Serialises b tags) {rsdpAddr : BitVec 64}
    {revision : BitVec 8}
    (hfound : Outcome.Returns (multiboot2FindAcpiRsdp b true) (some (rsdpAddr, revision))) :
    ∃ p, rsdpTag tags = some p ∧ rsdpAddr = payloadAddr b.addr p ∧ rsdpAddr ≠ 0#64 := by
  have hheader : 4 ≤ b.totalSize := le_trans (by decide) h.layout.le
  by_cases hedge : b.addr = 0#64 ∨ b.addr.toNat + b.totalSize = 2 ^ 64
  · have hnone := hfound.unique (nothing_returns hheader hedge).2.2
    cases hnone
  rw [not_or] at hedge
  have hspace : b.addr.toNat + b.totalSize ≤ 2 ^ 64 := h.inSpace
  have hend : b.addr.toNat + b.totalSize < 2 ^ 64 := by omega
  have hsteady := (steady_of_rsdp h.inSpace hedge.1 hfound).2
  have hanswer := hfound.unique (h.rsdp_returns hend hedge.1 hsteady)
  obtain ⟨p, hp, hpair⟩ := Option.map_eq_some_iff.mp hanswer.symm
  obtain ⟨rfl, _⟩ := Prod.mk.inj hpair
  exact ⟨p, hp, rfl, h.payloadAddr_ne hend (mem_of_rsdpTag hp).1⟩

/-- Below the last 4 GiB of the address space nothing overflows. -/
theorem Serialises.walkable (h : Serialises b tags)
    (hfar : b.addr.toNat + b.totalSize + 2 ^ 32 ≤ 2 ^ 64) : Walkable b where
  header := le_trans (by decide) h.layout.le
  steady := by
    -- a tag whose header is in the block is one of the list
    have htag (o : ℕ) (ho : b.TagAt (fun _ => True) o) (hheader : o + 8 ≤ b.totalSize)
        (htype : b.tagType o ≠ 0) : b.Passed o := by
      obtain ⟨rest, hrest, _⟩ := h.of_tagAt ho
      cases hrest with
      | blockEnd _ hlt => exact absurd hheader (Nat.not_le.mpr hlt)
      | endTag hend _ _ _ => exact absurd hend htype
      | tag hbytes hfits _ => exact hbytes.passed hfits
    refine ⟨fun o ho hheader htype => (htag o ho hheader htype).size_le, ?_, ?_⟩
    · intro o ho _
      have hle := ho.le
      omega
    · intro o ho hheader _ htype
      have hfits := (htag o ho hheader htype).fits
      omega
  entries o _ hpassed hmmap hentry := by
    have htag := hpassed.tag_le
    have hspec := (BootInfo.entryCount_spec hmmap hentry).1
    have hlt := b.entrySize_lt o
    unfold BootInfo.EntriesInSpace
    rw [Nat.succ_mul]
    omega
  colours o _ hpassed hfb _ := by
    have htag := hpassed.tag_le
    have hge := hfb.2
    omega

/-- Every block that is the serialisation of a list of tags: the three functions return what the
list says if and only if no address that they compute overflows and, for a block at address 0 or at
the end of the address space, there is nothing to be found. -/
theorem multiboot2_answers_iff (h : Serialises b tags) :
    Answers b tags ↔
      (b.addr = 0#64 ∨ Walkable b) ∧
        (b.addr = 0#64 ∨ b.addr.toNat + b.totalSize = 2 ^ 64 → Nothing b.addr tags) := by
  have hheader : 4 ≤ b.totalSize := le_trans (by decide) h.layout.le
  constructor
  · intro hanswers
    refine ⟨?_, ?_⟩
    · by_cases hnull : b.addr = 0#64
      · exact .inl hnull
      · obtain ⟨r, hframebuffer, _⟩ := hanswers.framebuffer noFramebuffer
        exact .inr (walkable_of_returns h.inSpace hnull hanswers.largest hframebuffer
          hanswers.rsdp)
    · intro hedge
      obtain ⟨hlargest, hframebuffer, hrsdp⟩ := nothing_returns hheader hedge
      refine ⟨hanswers.largest.unique hlargest, ?_, hanswers.rsdp.unique hrsdp⟩
      obtain ⟨r, hr, hfields⟩ := hanswers.framebuffer noFramebuffer
      rw [hr.unique (hframebuffer _)] at hfields
      exact hfields.symm
  · rintro ⟨hwalk, hnothing⟩
    by_cases hedge : b.addr = 0#64 ∨ b.addr.toNat + b.totalSize = 2 ^ 64
    · obtain ⟨hlargest, hframebuffer, hrsdp⟩ := nothing_returns hheader hedge
      have hnone := hnothing hedge
      refine ⟨?_, fun info => ⟨_, hframebuffer info, hnone.framebuffer.symm⟩, ?_⟩
      · rw [hnone.largest]
        exact hlargest
      · rw [hnone.rsdp]
        exact hrsdp
    · rw [not_or] at hedge
      have hspace : b.addr.toNat + b.totalSize ≤ 2 ^ 64 := h.inSpace
      have hend : b.addr.toNat + b.totalSize < 2 ^ 64 := by omega
      have hwalk' := hwalk.resolve_left hedge.1
      exact ⟨h.largest_returns hend hedge.1 hwalk', h.framebuffer_returns hend hedge.1 hwalk',
        h.rsdp_returns hend hedge.1 hwalk'.steady⟩

/-- A block of 88 bytes: a root pointer of version 1, a memory map with 16 KiB at 1 MiB, and the end
tag. -/
def sampleBlock (addr : BitVec 64) : BootInfo where
  memory := Memory.ofWords addr [88#64, 0x1C0000000E#64, 0#64, 0#64, 0#64, 0x2800000006#64, 24#64,
    0x100000#64, 0x4000#64, 1#64, 0x800000000#64]
  addr := addr

def sampleRsdp : Tag :=
  ⟨multibootTagTypeAcpiOld, replicate 20 0#8, acpiOld_ne_end, by decide⟩

def sampleMmap : Tag :=
  ⟨multibootTagTypeMmap,
    [24#64, 0x100000#64, 0x4000#64, 1#64].flatMap fun w => (range 8).map (Memory.byteOf w),
    by decide, by decide⟩

theorem serialises_sampleBlock {addr : BitVec 64}
    (hspace : (sampleBlock addr).addr.toNat + (sampleBlock addr).totalSize ≤ 2 ^ 64)
    (htotal : (sampleBlock addr).totalSize = 88)
    (hrsdp : (sampleBlock addr).tagType 8 = 14 ∧ (sampleBlock addr).tagSize 8 = 28 ∧
      (sampleBlock addr).memory.BytesAt ((sampleBlock addr).addrAt 16) sampleRsdp.payload)
    (hmmap : (sampleBlock addr).tagType 40 = 6 ∧ (sampleBlock addr).tagSize 40 = 40 ∧
      (sampleBlock addr).memory.BytesAt ((sampleBlock addr).addrAt 48) sampleMmap.payload)
    (hend : (sampleBlock addr).tagType 80 = 0 ∧ (sampleBlock addr).tagSize 80 = 8) :
    Serialises (sampleBlock addr) [sampleRsdp, sampleMmap] where
  inSpace := hspace
  layout := by
    have hlast : TagsFrom (sampleBlock addr) 80 [] :=
      .endTag hend.1 (le_of_eq hend.2.symm) (by rw [hend.2]; decide)
        (by rw [BootInfo.paddedSize, htotal, hend.2])
    exact .tag ⟨hrsdp.1, hrsdp.2.1, hrsdp.2.2⟩ (by rw [htotal]; decide)
      (.tag ⟨hmmap.1, hmmap.2.1, hmmap.2.2⟩ (by rw [htotal]; decide) hlast)
  entries := by decide +kernel

theorem multiboot2_answers_iff_sample :
    Serialises (sampleBlock 0x9000#64) [sampleRsdp, sampleMmap] ∧
      Outcome.Returns (multiboot2FindLargestAvailableRegion (sampleBlock 0x9000#64) true)
        (some ⟨0x100000#64, 0x4000#64⟩) ∧
      Outcome.Returns (multiboot2FindAcpiRsdp (sampleBlock 0x9000#64) true)
        (some (0x9010#64, 0#8)) := by
  have htotal : (sampleBlock 0x9000#64).totalSize = 88 := by decide +kernel
  have h : Serialises (sampleBlock 0x9000#64) [sampleRsdp, sampleMmap] :=
    serialises_sampleBlock (by decide +kernel) htotal (by decide +kernel) (by decide +kernel)
      (by decide +kernel)
  have hwalk : Walkable (sampleBlock 0x9000#64) := h.walkable (by rw [htotal]; decide)
  have hanswers := (multiboot2_answers_iff h).mpr
    ⟨.inr hwalk, fun hedge => absurd hedge (by rw [htotal]; decide)⟩
  have hlargest : largestAvailable [sampleRsdp, sampleMmap] =
      some ⟨0x100000#64, 0x4000#64⟩ := by decide +kernel
  have hrsdp : acpiRsdp 0x9000#64 [sampleRsdp, sampleMmap] = some (0x9010#64, 0#8) := by
    decide +kernel
  refine ⟨h, ?_, ?_⟩
  · rw [← hlargest]
    exact hanswers.largest
  · rw [← hrsdp]
    exact hanswers.rsdp

/-- The same block in the last bytes but 8 of the address space: behind the only entry of the memory
map the address of the next one overflows, and the search does not return. -/
theorem sample_at_top_no_answer :
    Serialises (sampleBlock 0xFFFFFFFFFFFFFFA0#64) [sampleRsdp, sampleMmap] ∧
      largestAvailable [sampleRsdp, sampleMmap] = some ⟨0x100000#64, 0x4000#64⟩ ∧
      ∀ r, ¬ Outcome.Returns
        (multiboot2FindLargestAvailableRegion (sampleBlock 0xFFFFFFFFFFFFFFA0#64) true) r := by
  have htotal : (sampleBlock 0xFFFFFFFFFFFFFFA0#64).totalSize = 88 := by decide +kernel
  have h : Serialises (sampleBlock 0xFFFFFFFFFFFFFFA0#64) [sampleRsdp, sampleMmap] :=
    serialises_sampleBlock (by decide +kernel) htotal (by decide +kernel) (by decide +kernel)
      (by decide +kernel)
  refine ⟨h, by decide +kernel, ?_⟩
  intro r hreturns
  have hpositions : positions 8 [sampleRsdp, sampleMmap] =
      [(8, sampleRsdp), (40, sampleMmap)] := rfl
  obtain ⟨_, hbytes, hfits⟩ := h.layout.of_mem_positions (p := (8, sampleRsdp))
    (by rw [hpositions]; exact mem_cons_self)
  obtain ⟨_, hbytes', hfits'⟩ := h.layout.of_mem_positions (p := (40, sampleMmap))
    (by rw [hpositions]; exact mem_cons_of_mem _ mem_cons_self)
  have hfirst : (sampleBlock 0xFFFFFFFFFFFFFFA0#64).TagAt
      (sampleBlock 0xFFFFFFFFFFFFFFA0#64).MmapGoesOn 8 :=
    .first (by rw [htotal]; decide) (by rw [htotal]; decide)
  have hsecond := hfirst.next 8 (hbytes.passed hfits)
    fun hmmap => absurd (hbytes.isMmap_iff.mp hmmap) (by decide)
  rw [hbytes.paddedSize_eq, show 8 + sampleRsdp.paddedSize = 40 from rfl] at hsecond
  have hspace := entriesInSpace_of_largest (by rw [htotal]; decide) (by decide) hreturns hsecond
    (hbytes'.passed hfits') (by decide +kernel) (by decide +kernel)
  unfold BootInfo.EntriesInSpace at hspace
  revert hspace
  decide +kernel

end GnuOS.Boot
