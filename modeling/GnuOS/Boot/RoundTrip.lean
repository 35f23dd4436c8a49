import GnuOS.Boot.Queries
import GnuOS.Boot.Reservations
import GnuOS.Boot.Uefi

/-!
# From the boot loader to the kernel

The boot information that the UEFI stub writes, read by the kernel: where the tags and their
fields are in the buffer, and what the three functions of the kernel find there.
-/

namespace GnuOS.Boot

open GnuOS.Lib GnuOS.Pmm
open BitVec hiding not_or

/-! ## Sizes -/

theorem toNat_gnuosAlignUp (v : BitVec 64) :
    (gnuosAlignUp v 8#64).toNat = (v.toNat + 7) % 2 ^ 64 / 8 * 8 :=
  toNat_round_up v (n := 3) (by decide)

/-- The space of the framebuffer tag. -/
def framebufferSpace : Option EfiFramebufferInfo → ℕ
  | some _ => 40
  | none => 0

variable {count : BitVec 64} {fb : Option EfiFramebufferInfo}

theorem toNat_mmapTagSize (h : count.toNat * 40 < 2 ^ 64) :
    (mmapTagSize count).toNat = 16 + 24 * count.toNat := by
  rw [mmapTagSize, toNat_add, toNat_mul, toNat_ofNat, toNat_ofNat]
  omega

theorem toNat_infoSize (fb : Option EfiFramebufferInfo) (h : count.toNat * 40 < 2 ^ 64)
    (hsize : (mmapTagSize count).toNat ≤ 0xFFFFFFFF) :
    (infoSize count fb).toNat = 32 + 24 * count.toNat + framebufferSpace fb := by
  have hmmap := toNat_mmapTagSize h
  have halign := toNat_gnuosAlignUp (mmapTagSize count)
  have hframe : (gnuosAlignUp framebufferTagSize 8#64).toNat = 40 := by decide
  have hend : (gnuosAlignUp 8#64 8#64).toNat = 8 := by decide
  cases fb with
  | some info =>
    simp only [infoSize, framebufferSpace, toNat_add, halign, hframe, hend, hmmap,
      toNat_ofNat]
    omega
  | none =>
    simp only [infoSize, framebufferSpace, toNat_add, halign, hend, hmmap,
      toNat_ofNat]
    omega

/-! ## The records -/

def framebufferFields (cursor : ℕ) : Option EfiFramebufferInfo → List Memory.Field
  | some info => framebufferTagFields cursor info
  | none => []

theorem entries_ascend (descriptors : ℕ → EfiMemoryDescriptor) (n : ℕ) :
    Memory.Ascends 24 ((List.range n).flatMap fun i => entryFields i (descriptors i))
      (24 + 24 * n) := by
  apply Memory.Ascends.flatMap_range
  intro i _
  simp only [entryFields, Memory.Ascends]
  omega

theorem mmapTag_ascends (size : BitVec 64) : Memory.Ascends 8 (mmapTagFields size) 24 := by
  simp [mmapTagFields, Memory.Ascends]

theorem framebuffer_ascends (cursor : ℕ) (fb : Option EfiFramebufferInfo) :
    Memory.Ascends cursor (framebufferFields cursor fb) (cursor + framebufferSpace fb) := by
  cases fb with
  | none => simp [framebufferFields, framebufferSpace, Memory.Ascends]
  | some info =>
    simp only [framebufferFields, framebufferSpace, framebufferTagFields, Memory.Ascends]
    omega

theorem endTag_ascends (cursor : ℕ) :
    Memory.Ascends cursor (endTagFields cursor) (cursor + 8) := by
  simp only [endTagFields, Memory.Ascends]
  omega

theorem header_ascends (size : BitVec 64) : Memory.Ascends 0 (headerFields size) 8 := by
  simp [headerFields, Memory.Ascends]

/-- The buffer is filled with five groups of records. -/
theorem fillInfo_eq (mem memoryMap : Memory) (descriptorSize : BitVec 64) (buffer : EfiBuffer)
    (h : count.toNat * 40 < 2 ^ 64) (hsize : (mmapTagSize count).toNat ≤ 0xFFFFFFFF) :
    fillInfo mem memoryMap descriptorSize count buffer fb =
      (((((gnuosMemset mem buffer.base 0#8 buffer.sizeBytes.toNat).storeFields buffer.base
        ((List.range count.toNat).flatMap fun i =>
          entryFields i (descriptorAt memoryMap (BitVec.ofNat 64 i * descriptorSize)))).storeFields
        buffer.base (mmapTagFields (mmapTagSize count))).storeFields
        buffer.base (framebufferFields (24 + 24 * count.toNat) fb)).storeFields
        buffer.base (endTagFields (24 + 24 * count.toNat + framebufferSpace fb))).storeFields
        buffer.base (headerFields (infoSize count fb)) := by
  have hmmap := toNat_mmapTagSize h
  have hcursor : (8#64 + gnuosAlignUp (mmapTagSize count) 8#64).toNat =
      24 + 24 * count.toNat := by
    rw [toNat_add, toNat_gnuosAlignUp, hmmap, toNat_ofNat]
    omega
  have hend : (8#64 + gnuosAlignUp (mmapTagSize count) 8#64 +
      gnuosAlignUp framebufferTagSize 8#64).toNat = 24 + 24 * count.toNat + 40 := by
    rw [toNat_add, hcursor, show (gnuosAlignUp framebufferTagSize 8#64).toNat = 40 by
      decide]
    omega
  rw [Memory.storeFields_flatMap]
  cases fb with
  | some info =>
    simp only [fillInfo, hcursor, hend, framebufferFields, framebufferSpace]
  | none =>
    simp only [fillInfo, hcursor, framebufferFields, framebufferSpace, Nat.add_zero,
      Memory.storeFields_nil]

/-! ## Where things are -/

/-- What the kernel should learn about a framebuffer. -/
def EfiFramebufferInfo.handedOver (info : EfiFramebufferInfo) : FramebufferInfo where
  address := info.framebufferAddr
  pitch := info.pitch
  width := info.width
  height := info.height
  bpp := info.bpp
  type := multibootFramebufferTypeRgb
  redFieldPosition := info.redFieldPosition
  redMaskSize := info.redMaskSize
  greenFieldPosition := info.greenFieldPosition
  greenMaskSize := info.greenMaskSize
  blueFieldPosition := info.blueFieldPosition
  blueMaskSize := info.blueMaskSize

/-- The fields of the boot information for `n` descriptors. -/
structure Layout (b : BootInfo) (n : ℕ) (descriptors : ℕ → EfiMemoryDescriptor)
    (fb : Option EfiFramebufferInfo) : Prop where
  total : b.totalSize = 32 + 24 * n + framebufferSpace fb
  mmap : b.tagType 8 = 6 ∧ b.tagSize 8 = 16 + 24 * n ∧ b.entrySize 8 = 24
  entry : ∀ i, i < n → b.word64 (24 + 24 * i) = (descriptors i).physicalStart.toNat ∧
    b.word64 (24 + 24 * i + 8) = (descriptors i).length.toNat ∧
    b.word32 (24 + 24 * i + 16) = (gnuosEfiMemoryTypeToMultiboot (descriptors i).type).toNat
  framebuffer : ∀ info, fb = some info → b.tagType (24 + 24 * n) = 8 ∧
    b.tagSize (24 + 24 * n) = 38 ∧ b.word8 (24 + 24 * n + 29) = 1 ∧
    coloursAt b (24 + 24 * n + 32) (framebufferAt b (24 + 24 * n)) = info.handedOver
  endTag : b.tagType (24 + 24 * n + framebufferSpace fb) = 0 ∧
    b.tagSize (24 + 24 * n + framebufferSpace fb) = 8

theorem framebufferSpace_le (fb : Option EfiFramebufferInfo) : framebufferSpace fb ≤ 40 := by
  cases fb <;> simp [framebufferSpace]

theorem toNat_mod_width {w n : ℕ} (v : BitVec w) (h : 256 ^ n = 2 ^ w) :
    v.toNat % 256 ^ n = v.toNat := by
  rw [h]
  exact Nat.mod_eq_of_lt v.isLt

/-- All fields that were stored are in the buffer at the end. -/
theorem fillInfo_load (fb : Option EfiFramebufferInfo) (mem memoryMap : Memory)
    (descriptorSize : BitVec 64) (buffer : EfiBuffer) (h : count.toNat * 40 < 2 ^ 64)
    (hsize : (mmapTagSize count).toNat ≤ 0xFFFFFFFF) {f : Memory.Field}
    (hf : f ∈ (List.range count.toNat).flatMap (fun i => entryFields i
        (descriptorAt memoryMap (BitVec.ofNat 64 i * descriptorSize))) ∨
      f ∈ mmapTagFields (mmapTagSize count) ∨
      f ∈ framebufferFields (24 + 24 * count.toNat) fb ∨
      f ∈ endTagFields (24 + 24 * count.toNat + framebufferSpace fb) ∨
      f ∈ headerFields (infoSize count fb)) :
    (fillInfo mem memoryMap descriptorSize count buffer fb).load
      (buffer.base + BitVec.ofNat 64 f.offset) f.width = f.value % 256 ^ f.width := by
  have hspace := framebufferSpace_le fb
  have hmmapSize := toNat_mmapTagSize h
  have hentries := entries_ascend
    (fun i => descriptorAt memoryMap (BitVec.ofNat 64 i * descriptorSize)) count.toNat
  have hmmap := mmapTag_ascends (mmapTagSize count)
  have hframe := framebuffer_ascends (24 + 24 * count.toNat) fb
  have hend := endTag_ascends (24 + 24 * count.toNat + framebufferSpace fb)
  have hheader := header_ascends (infoSize count fb)
  rw [fillInfo_eq mem memoryMap descriptorSize buffer h hsize]
  -- the groups do not overlap, so the later ones leave it alone
  rcases hf with hf | hf | hf | hf | hf
  · have hbounds := hentries.bounds hf
    rw [Memory.load_storeFields_other hheader (by omega) (by omega) (by omega),
      Memory.load_storeFields_other hend (by omega) (by omega) (by omega),
      Memory.load_storeFields_other hframe (by omega) (by omega) (by omega),
      Memory.load_storeFields_other hmmap (by omega) (by omega) (by omega)]
    exact Memory.load_storeFields hentries (by omega) hf
  · have hbounds := hmmap.bounds hf
    rw [Memory.load_storeFields_other hheader (by omega) (by omega) (by omega),
      Memory.load_storeFields_other hend (by omega) (by omega) (by omega),
      Memory.load_storeFields_other hframe (by omega) (by omega) (by omega)]
    exact Memory.load_storeFields hmmap (by omega) hf
  · have hbounds := hframe.bounds hf
    rw [Memory.load_storeFields_other hheader (by omega) (by omega) (by omega),
      Memory.load_storeFields_other hend (by omega) (by omega) (by omega)]
    exact Memory.load_storeFields hframe (by omega) hf
  · have hbounds := hend.bounds hf
    rw [Memory.load_storeFields_other hheader (by omega) (by omega) (by omega)]
    exact Memory.load_storeFields hend (by omega) hf
  · exact Memory.load_storeFields hheader (by omega) hf

theorem ofNat_mod_width {w n : ℕ} (v : BitVec w) (h : 256 ^ n = 2 ^ w) :
    BitVec.ofNat w (v.toNat % 256 ^ n) = v := by
  rw [h, Nat.mod_eq_of_lt v.isLt, ofNat_toNat, setWidth_eq]

theorem fillInfo_layout (mem memoryMap : Memory) (descriptorSize count : BitVec 64)
    (buffer : EfiBuffer) (fb : Option EfiFramebufferInfo) (h : count.toNat * 40 < 2 ^ 64)
    (hsize : (mmapTagSize count).toNat ≤ 0xFFFFFFFF)
    (htotal : (infoSize count fb).toNat ≤ 0xFFFFFFFF) :
    Layout ⟨fillInfo mem memoryMap descriptorSize count buffer fb, buffer.base⟩ count.toNat
      (fun i => descriptorAt memoryMap (BitVec.ofNat 64 i * descriptorSize)) fb := by
  have hinfo : (infoSize count fb).toNat = 32 + 24 * count.toNat + framebufferSpace fb :=
    toNat_infoSize fb h hsize
  have hmmapSize := toNat_mmapTagSize h
  have hload := fun o w v =>
    fillInfo_load (f := ⟨o, w, v⟩) fb mem memoryMap descriptorSize buffer h hsize
  simp only at hload
  generalize fillInfo mem memoryMap descriptorSize count buffer fb = mem' at *
  refine ⟨?_, ⟨?_, ?_, ?_⟩, ?_, ?_, ⟨?_, ?_⟩⟩
  · have hfield := hload 0 4 (infoSize count fb).toNat (by simp [headerFields])
    rw [BitVec.add_zero, hinfo, Nat.mod_eq_of_lt (by omega)] at hfield
    exact hfield
  · exact hload 8 4 6 (by simp [mmapTagFields])
  · have hfield := hload 12 4 (mmapTagSize count).toNat (by simp [mmapTagFields])
    rw [hmmapSize, Nat.mod_eq_of_lt (by omega)] at hfield
    exact hfield
  · exact hload 16 4 24 (by simp [mmapTagFields])
  · intro i hi
    have hmem : ∀ o w v, ⟨o, w, v⟩ ∈ entryFields i
        (descriptorAt memoryMap (BitVec.ofNat 64 i * descriptorSize)) →
        mem'.load (buffer.base + BitVec.ofNat 64 o) w = v % 256 ^ w := fun o w v hf =>
      hload o w v (Or.inl (List.mem_flatMap.mpr ⟨i, List.mem_range.mpr hi, hf⟩))
    refine ⟨?_, ?_, ?_⟩
    · exact (hmem _ 8 _ (by simp [entryFields])).trans (toNat_mod_width _ rfl)
    · exact (hmem _ 8 _ (by simp [entryFields])).trans (toNat_mod_width _ rfl)
    · exact (hmem _ 4 _ (by simp [entryFields])).trans (toNat_mod_width _ rfl)
  · intro info hfb
    have hmem : ∀ o w v, ⟨o, w, v⟩ ∈ framebufferTagFields (24 + 24 * count.toNat) info →
        mem'.load (buffer.base + BitVec.ofNat 64 o) w = v % 256 ^ w := by
      intro o w v hf
      apply hload
      rw [hfb]
      exact .inr (.inr (.inl hf))
    generalize 24 + 24 * count.toNat = c at *
    have hword : ∀ {w n} (v : BitVec w) {o}, 256 ^ n = 2 ^ w →
        ⟨o, n, v.toNat⟩ ∈ framebufferTagFields c info →
        BitVec.ofNat w (mem'.load (buffer.base + BitVec.ofNat 64 o) n) = v := by
      intro w n v o hw hf
      rw [hmem o n v.toNat hf, ofNat_mod_width v hw]
    refine ⟨?_, ?_, ?_, ?_⟩
    · exact hmem c 4 8 (by simp [framebufferTagFields])
    · exact hmem (c + 4) 4 framebufferTagSize.toNat (by simp [framebufferTagFields])
    · exact hmem (c + 29) 1 1 (by simp [framebufferTagFields])
    · unfold coloursAt framebufferAt EfiFramebufferInfo.handedOver
      rw [FramebufferInfo.mk.injEq]
      refine ⟨?_, ?_, ?_, ?_, ?_, hword multibootFramebufferTypeRgb rfl
        (by simp [framebufferTagFields, multibootFramebufferTypeRgb]), ?_, ?_, ?_, ?_, ?_, ?_⟩
      all_goals exact hword _ rfl (by simp [framebufferTagFields])
  · exact hload _ 4 0 (by simp [endTagFields])
  · exact hload (24 + 24 * count.toNat + framebufferSpace fb + 4) 4 8 (by simp [endTagFields])

/-! ## The walk over the boot information -/

section

variable {b : BootInfo} {n : ℕ} {descriptors : ℕ → EfiMemoryDescriptor}

namespace Layout

section

variable (h : Layout b n descriptors fb)

include h

theorem paddedSize_mmap : b.paddedSize 8 = 16 + 24 * n := by
  rw [BootInfo.paddedSize, h.mmap.2.1]
  omega

theorem passed_mmap : b.Passed 8 where
  header := by
    rw [h.total]
    omega
  size_ge := by
    rw [h.mmap.2.1]
    omega
  size_le := by
    have htotal := h.total
    have hlt := b.totalSize_lt
    rw [h.mmap.2.1]
    omega
  fits := by
    rw [h.paddedSize_mmap, h.total]
    omega
  notEnd := by
    rw [h.mmap.1]
    decide

theorem isMmap : b.IsMmap 8 :=
  ⟨h.mmap.1, by rw [h.mmap.2.1]; omega⟩

theorem entryCount_eq : b.entryCount 8 = n := by
  rw [BootInfo.entryCount, h.mmap.2.1, h.mmap.2.2]
  omega

end

theorem paddedSize_framebuffer {info : EfiFramebufferInfo}
    (h : Layout b n descriptors (some info)) : b.paddedSize (24 + 24 * n) = 40 := by
  rw [BootInfo.paddedSize, (h.framebuffer info rfl).2.1]

theorem passed_framebuffer {info : EfiFramebufferInfo}
    (h : Layout b n descriptors (some info)) : b.Passed (24 + 24 * n) where
  header := by
    rw [h.total, framebufferSpace]
    omega
  size_ge := by
    rw [(h.framebuffer info rfl).2.1]
    decide
  size_le := by
    rw [(h.framebuffer info rfl).2.1]
    decide
  fits := by
    rw [h.paddedSize_framebuffer, h.total, framebufferSpace]
    omega
  notEnd := by
    rw [(h.framebuffer info rfl).1]
    decide

variable {σ ρ : Type} {s s' : σ} (finish reject : σ → ρ) (fuel : ℕ) {body : TagBody σ ρ}

/-- The end tag is the last thing that a walk looks at. -/
theorem walk_end (h : Layout b n descriptors fb) (hend : b.addr.toNat + b.totalSize < 2 ^ 64) :
    b.walkFrom body finish reject (fuel + 1) (24 + 24 * n + framebufferSpace fb) s =
      .value (finish s) := by
  have htotal := h.total
  have hsize := h.endTag.2
  have hpadded : b.paddedSize (24 + 24 * n + framebufferSpace fb) = 8 := by
    rw [BootInfo.paddedSize, hsize]
  rw [walkFrom_fits hend (by omega) (by omega) (by omega), if_pos h.endTag.1]

/-- A walk that passes the memory map. -/
theorem walk (h : Layout b n descriptors fb) (hend : b.addr.toNat + b.totalSize < 2 ^ 64)
    (hmmap : b.onTag body 8 s = .value (.next s')) :
    walkBlock b body finish reject (fuel + 3) s =
      if fb.isSome then
        b.onTag body (24 + 24 * n) s' >>= Flow.proceed fun s => .value (finish s)
      else .value (finish s') := by
  have htotal := h.total
  rw [walkBlock_eq (le_of_lt hend) (by omega), if_neg (by omega),
    walkFrom_passed hend h.passed_mmap, hmmap, Outcome.value_bind, h.paddedSize_mmap,
    show 8 + (16 + 24 * n) = 24 + 24 * n by omega]
  show b.walkFrom body finish reject (fuel + 1 + 1) (24 + 24 * n) s' = _
  cases fb with
  | none => exact h.walk_end _ _ _ hend
  | some info =>
    rw [walkFrom_passed hend h.passed_framebuffer, h.paddedSize_framebuffer]
    have hlast : (fun s => b.walkFrom body finish reject (fuel + 1) (24 + 24 * n + 40) s) =
        fun s => .value (finish s) := by
      funext s
      exact h.walk_end _ _ _ hend
    rw [hlast]
    rfl

end Layout

end

/-! ## The largest region -/

section

variable {d : ℕ → EfiMemoryDescriptor} {i j n : ℕ} {best : Available}

/-- The descriptor is of a type that the kernel may use. -/
def EfiMemoryDescriptor.Usable (d : EfiMemoryDescriptor) : Prop :=
  gnuosEfiMemoryTypeToMultiboot d.type = multiboot2MemoryAvailable

/-- The first of the longest usable regions among the first `n`, if one has a length. -/
def IsFirstLargest (d : ℕ → EfiMemoryDescriptor) (n : ℕ) : Option Available → Prop
  | none => ∀ j, j < n → (d j).Usable → (d j).length = 0#64
  | some r => ∃ i, i < n ∧ (d i).Usable ∧ r = ⟨(d i).physicalStart, (d i).length⟩ ∧
      (d i).length ≠ 0#64 ∧ (∀ j, j < n → (d j).Usable → (d j).length ≤ (d i).length) ∧
      ∀ j, j < i → (d j).Usable → (d j).length < (d i).length

instance (d : EfiMemoryDescriptor) : Decidable d.Usable := inferInstanceAs (Decidable (_ = _))

/-- What the loop does with an entry, in terms of the descriptor. -/
def improveWith (d : EfiMemoryDescriptor) (best : Available) : Available :=
  if d.Usable ∧ best.size < d.length then ⟨d.physicalStart, d.length⟩ else best

theorem IsFirstLargest.le (h : IsFirstLargest d n (largestResult best)) (hj : j < n)
    (husable : (d j).Usable) : (d j).length ≤ best.size := by
  unfold largestResult at h
  split at h
  · rename_i hzero
    rw [h j hj husable, hzero]
    exact BitVec.le_refl _
  · rcases h with ⟨i, _, _, hbest, _, hmax, _⟩
    rw [hbest]
    exact hmax j hj husable

/-- One more entry. -/
theorem IsFirstLargest.step (h : IsFirstLargest d n (largestResult best)) :
    IsFirstLargest d (n + 1) (largestResult (improveWith (d n) best)) := by
  unfold improveWith
  by_cases hbetter : (d n).Usable ∧ best.size < (d n).length
  · rw [if_pos hbetter]
    have hne : (d n).length ≠ 0#64 := by
      intro hzero
      rw [hzero] at hbetter
      exact absurd hbetter.2 (by simp)
    have hlt : ∀ j, j < n → (d j).Usable → (d j).length < (d n).length := by
      intro j hj husable
      have hle := h.le hj husable
      have hmore := hbetter.2
      bv_omega
    rw [largestResult, if_neg hne]
    refine ⟨n, by omega, hbetter.1, rfl, hne, ?_, hlt⟩
    intro j hj husable
    rcases Nat.lt_succ_iff_lt_or_eq.mp hj with hjn | rfl
    · exact BitVec.le_of_lt (hlt j hjn husable)
    · exact BitVec.le_refl _
  · rw [if_neg hbetter]
    have hle : (d n).Usable → (d n).length ≤ best.size :=
      fun husable => BitVec.not_lt.mp fun hlt => hbetter ⟨husable, hlt⟩
    unfold largestResult at h ⊢
    by_cases hzero : best.size = 0#64
    · rw [if_pos hzero] at h ⊢
      intro j hj husable
      rcases Nat.lt_succ_iff_lt_or_eq.mp hj with hlt | rfl
      · exact h j hlt husable
      · have hlen := hle husable
        rw [hzero] at hlen
        exact le_zero_iff.mp hlen
    · rw [if_neg hzero] at h ⊢
      rcases h with ⟨i, hi, husable, hbest, hne, hmax, hfirst⟩
      refine ⟨i, by omega, husable, hbest, hne, ?_, hfirst⟩
      intro j hj husable
      rcases Nat.lt_succ_iff_lt_or_eq.mp hj with hlt | rfl
      · exact hmax j hlt husable
      · have hlen := hle husable
        rw [hbest] at hlen
        exact hlen

variable {b : BootInfo}

theorem improve_eq (h : Layout b n d fb) (hi : i < n) (best : Available) :
    improve b (24 + 24 * i) best = improveWith (d i) best := by
  rcases h.entry i hi with ⟨haddr, hlen, htype⟩
  have husable : b.word32 (24 + 24 * i + 16) = 1 ↔ (d i).Usable := by
    rw [htype, EfiMemoryDescriptor.Usable, ← toNat_inj,
      show multiboot2MemoryAvailable.toNat = 1 from rfl]
  unfold improve improveWith
  simp only [husable, haddr, hlen, ofNat_toNat, setWidth_eq]

theorem improveAll_spec (h : Layout b n d fb) {k : ℕ} (hk : i + k = n)
    (hbest : IsFirstLargest d i (largestResult best)) :
    IsFirstLargest d n (largestResult (improveAll b 24 k (24 + 24 * i) best)) := by
  induction k generalizing i best with
  | zero =>
    rw [Nat.add_zero] at hk
    rw [← hk]
    exact hbest
  | succ k ih =>
    rw [improveAll, show 24 + 24 * i + 24 = 24 + 24 * (i + 1) by omega,
      improve_eq h (by omega)]
    exact ih (by omega) hbest.step

end

/-! ## What the kernel finds -/

section

variable {b : BootInfo} {n : ℕ} {d : ℕ → EfiMemoryDescriptor}

/-- The return value and the contents of `out_info` for a framebuffer that was handed over. -/
def framebufferResult (info : FramebufferInfo) :
    Option EfiFramebufferInfo → Bool × Option FramebufferInfo
  | some framebuffer => (true, some framebuffer.handedOver)
  | none => (false, some info)

/-- The kernel finds what the boot loader knew, and reads the boot information only. -/
structure RoundTrip (b : BootInfo) (n : ℕ) (d : ℕ → EfiMemoryDescriptor)
    (fb : Option EfiFramebufferInfo) : Prop where
  largest : ∃ r, Outcome.Returns (multiboot2FindLargestAvailableRegion b true) r ∧
    IsFirstLargest d n r
  framebuffer : ∀ info, Outcome.Returns (multiboot2FindFramebuffer b (some info))
    (framebufferResult info fb)
  rsdp : ∃ r, Outcome.Returns (multiboot2FindAcpiRsdp b true) r

namespace Layout

section

variable (h : Layout b n d fb) (hnull : b.addr ≠ 0#64)
  (hend : b.addr.toNat + b.totalSize < 2 ^ 64)

include h hnull hend

theorem largest_returns (hspace : b.addr.toNat + (48 + 24 * n) < 2 ^ 64) :
    ∃ r, Outcome.Returns (multiboot2FindLargestAvailableRegion b true) r ∧
      IsFirstLargest d n r := by
  have htotal := h.total
  have hb : b.InSpace := le_of_lt hend
  have hentries : b.EntriesInSpace 8 := by
    rw [BootInfo.EntriesInSpace, h.entryCount_eq, h.mmap.2.2]
    omega
  refine ⟨largestResult (improveAll b 24 n 24 ⟨0#64, 0#64⟩),
    ⟨b.totalSize + 3, fun fuel hfuel => ?_⟩, ?_⟩
  · have hmmap := mmapBody_entries hb h.passed_mmap h.isMmap (by rw [h.mmap.2.2]) hentries
      (show b.totalSize ≤ fuel by omega) ⟨0#64, 0#64⟩
    rw [h.entryCount_eq, h.mmap.2.2] at hmmap
    rw [multiboot2FindLargestAvailableRegion, if_neg (by simp [hnull])]
    have hwalk := h.walk largestResult (fun _ => none) (fuel - 3) hend hmmap
    rw [Nat.sub_add_cancel (by omega)] at hwalk
    refine hwalk.trans ?_
    cases fb with
    | none => rfl
    | some info =>
      have hother : ¬b.IsMmap (24 + 24 * n) := by
        intro hm
        have htype := hm.1
        rw [(h.framebuffer info rfl).1] at htype
        omega
      rw [mmapBody_eq hb h.passed_framebuffer, if_neg hother]
      rfl
  · exact improveAll_spec (i := 0) h (Nat.zero_add n) fun j hj => absurd hj (by omega)

theorem framebuffer_returns (info : FramebufferInfo) :
    Outcome.Returns (multiboot2FindFramebuffer b (some info)) (framebufferResult info fb) := by
  have hb : b.InSpace := le_of_lt hend
  have hother : ¬b.IsFramebuffer 8 := by
    intro hf
    have htype := hf.1
    rw [h.mmap.1] at htype
    omega
  have hmmap := framebufferBody_eq hb h.passed_mmap info
  rw [if_neg hother] at hmmap
  refine ⟨3, fun fuel hfuel => ?_⟩
  have hwalk := h.walk (fun info => (false, info)) (fun info => (false, info)) (fuel - 3) hend
    hmmap
  rw [Nat.sub_add_cancel hfuel] at hwalk
  rw [multiboot2FindFramebuffer, if_neg hnull, hwalk]
  cases fb with
  | none => rfl
  | some framebuffer =>
    rcases h.framebuffer framebuffer rfl with ⟨htype, hsize, hrgb, hinfo⟩
    have hpassed := h.passed_framebuffer
    have htag := hpassed.tag_le
    rw [framebufferBody_rgb hb hpassed ⟨htype, by omega⟩ hrgb (by omega) (by omega), hinfo]
    rfl

theorem rsdp_returns :
    Outcome.Returns (multiboot2FindAcpiRsdp b true) none := by
  have hbody : ∀ {o} r, b.tagType o < 14 → b.onTag (rsdpBody b) o r = .value (.next r) := by
    intro o r htype
    have hother : ∀ n, n < 2 ^ 32 → 14 ≤ n →
        BitVec.ofNat 32 (b.tagType o) ≠ BitVec.ofNat 32 n := by
      intro n hn hge heq
      have htag := (ofNat_eq_iff (b.tagType_lt o) hn).mp heq
      omega
    exact (if_neg (hother 14 (by decide) (by decide))).trans
      (if_neg fun hnew => hother 15 (by decide) (by decide) hnew.1)
  have hmmap := hbody ⟨0#64, 0#64, 0#8⟩ (show b.tagType 8 < 14 by rw [h.mmap.1]; decide)
  refine ⟨3, fun fuel hfuel => ?_⟩
  have hwalk := h.walk rsdpResult (fun _ => none) (fuel - 3) hend hmmap
  rw [Nat.sub_add_cancel hfuel] at hwalk
  rw [multiboot2FindAcpiRsdp, if_neg (by simp [hnull]), hwalk]
  cases fb with
  | none => rfl
  | some framebuffer =>
    rw [hbody _ (by rw [(h.framebuffer framebuffer rfl).1]; decide)]
    rfl

/-- If the memory map is followed by the end tag only, the loop over its entries computes an address
behind the block. -/
theorem space_of_roundTrip (hround : RoundTrip b n d fb) :
    b.addr.toNat + (48 + 24 * n) < 2 ^ 64 := by
  have htotal := h.total
  rcases hround.largest with ⟨r, hlargest, _⟩
  have hentries := entriesInSpace_of_largest (by omega) hnull hlargest
    (.first (by omega) hend) h.passed_mmap h.isMmap (by rw [h.mmap.2.2])
  rw [BootInfo.EntriesInSpace, h.entryCount_eq, h.mmap.2.2] at hentries
  omega

end

end Layout

/-- Where the boot information may be: at least 17 bytes before the end of the address space or,
with a framebuffer, anywhere before it; at its very end only if there is nothing to be found. -/
def FindableAt (base : BitVec 64) (n : ℕ) (d : ℕ → EfiMemoryDescriptor)
    (fb : Option EfiFramebufferInfo) : Prop :=
  base.toNat + (32 + 24 * n + framebufferSpace fb) + 16 < 2 ^ 64 ∨
    (fb.isSome ∧ base.toNat + (32 + 24 * n + framebufferSpace fb) < 2 ^ 64) ∨
    (base.toNat + (32 + 24 * n + framebufferSpace fb) = 2 ^ 64 ∧ fb = none ∧
      IsFirstLargest d n none)

theorem Layout.roundTrip_iff (h : Layout b n d fb) (hnull : b.addr ≠ 0#64) (hb : b.InSpace) :
    RoundTrip b n d fb ↔ FindableAt b.addr n d fb := by
  have htotal := h.total
  have hle : b.addr.toNat + b.totalSize ≤ 2 ^ 64 := hb
  unfold FindableAt
  rw [← htotal]
  rcases Nat.lt_or_ge (b.addr.toNat + b.totalSize) (2 ^ 64) with hend | hend
  · have hsome : b.addr.toNat + (48 + 24 * n) < 2 ^ 64 → RoundTrip b n d fb := fun hspace =>
      ⟨h.largest_returns hnull hend hspace, h.framebuffer_returns hnull hend,
        ⟨none, h.rsdp_returns hnull hend⟩⟩
    constructor
    · intro hround
      have hspace := h.space_of_roundTrip hnull hend hround
      cases fb with
      | some info => exact .inr (.inl ⟨rfl, hend⟩)
      | none =>
        left
        rw [htotal, framebufferSpace]
        omega
    · intro hcases
      apply hsome
      rcases hcases with hfar | hfb | htop
      · omega
      · rcases Option.isSome_iff_exists.mp hfb.1 with ⟨info, rfl⟩
        rw [framebufferSpace] at htotal
        omega
      · omega
  · have htop : b.addr.toNat + b.totalSize = 2 ^ 64 := Nat.le_antisymm hle hend
    obtain ⟨hlargest, hframebuffer, hrsdp⟩ := nothing_returns (by omega) (.inr htop)
    constructor
    · intro hround
      rcases hround.largest with ⟨r, hr, hfirst⟩
      rw [hr.unique hlargest] at hfirst
      refine .inr (.inr ⟨htop, ?_, hfirst⟩)
      cases fb with
      | none => rfl
      | some info =>
        have hresult := (hround.framebuffer info.handedOver).unique
          (hframebuffer info.handedOver)
        simp [framebufferResult] at hresult
    · intro hcases
      rcases hcases with hfar | hfb | ⟨_, rfl, hnone⟩
      · omega
      · omega
      · exact ⟨⟨none, hlargest, hnone⟩, hframebuffer, ⟨none, hrsdp⟩⟩

end

/-! ## The boot loader and the kernel -/

section

variable {mem mem' memoryMap : Memory} {memoryMapSize descriptorSize addr : BitVec 64}
variable {buffer : EfiBuffer} {framebufferInfo : Option EfiFramebufferInfo}

/-- The boot information that passes the checks before the buffer is filled. -/
theorem gnuosBuildMultiboot2Info_layout (hdescriptor : 40 ≤ descriptorSize.toNat)
    (h : gnuosBuildMultiboot2Info mem (some memoryMap) memoryMapSize descriptorSize (some buffer)
      framebufferInfo true = (.ok addr, mem')) :
    addr = buffer.base ∧
      Layout ⟨mem', addr⟩ (memoryMapSize / descriptorSize).toNat
        (fun i => descriptorAt memoryMap (BitVec.ofNat 64 i * descriptorSize))
        (presentFramebuffer framebufferInfo) ∧
      32 + 24 * (memoryMapSize / descriptorSize).toNat +
        framebufferSpace (presentFramebuffer framebufferInfo) ≤ buffer.sizeBytes.toNat := by
  unfold gnuosBuildMultiboot2Info at h
  simp only at h
  split at h
  · simp at h
  split at h
  · simp at h
  split at h
  · simp at h
  rename_i hmmap
  split at h
  · simp at h
  rename_i hinfo
  rw [Prod.mk.injEq, Except.ok.injEq] at h
  obtain ⟨rfl, rfl⟩ := h
  rw [not_or, BitVec.not_lt, BitVec.not_lt] at hinfo
  rw [BitVec.not_lt] at hmmap
  have hcount : (memoryMapSize / descriptorSize).toNat * 40 < 2 ^ 64 := by
    have hlt := memoryMapSize.isLt
    have hdiv := Nat.div_le_div_left hdescriptor (a := memoryMapSize.toNat) (by decide)
    rw [← toNat_udiv] at hdiv
    omega
  have hsize := toNat_infoSize (presentFramebuffer framebufferInfo) hcount hmmap
  have hfits : _ ≤ buffer.sizeBytes.toNat := hinfo.2
  rw [hsize] at hfits
  exact ⟨rfl, fillInfo_layout mem memoryMap descriptorSize _ buffer _ hcount hmmap hinfo.1, hfits⟩

/-- For every memory map and framebuffer that the UEFI stub writes into a buffer inside the address
space, the kernel finds the first of the longest usable regions and the framebuffer and reads the
boot information only, if and only if the block is not at the very end of the address space. -/
theorem boot_info_round_trip_iff (mem memoryMap mem' : Memory)
    (memoryMapSize descriptorSize addr : BitVec 64) (buffer : EfiBuffer)
    (framebufferInfo : Option EfiFramebufferInfo) (hdescriptor : 40 ≤ descriptorSize.toNat)
    (hbuild : gnuosBuildMultiboot2Info mem (some memoryMap) memoryMapSize descriptorSize
      (some buffer) framebufferInfo true = (.ok addr, mem'))
    (hbase : buffer.base ≠ 0#64)
    (hspace : buffer.base.toNat + buffer.sizeBytes.toNat ≤ 2 ^ 64) :
    RoundTrip ⟨mem', addr⟩ (memoryMapSize / descriptorSize).toNat
        (fun i => descriptorAt memoryMap (BitVec.ofNat 64 i * descriptorSize))
        (presentFramebuffer framebufferInfo) ↔
      FindableAt buffer.base (memoryMapSize / descriptorSize).toNat
        (fun i => descriptorAt memoryMap (BitVec.ofNat 64 i * descriptorSize))
        (presentFramebuffer framebufferInfo) := by
  obtain ⟨rfl, hlayout, hfits⟩ := gnuosBuildMultiboot2Info_layout hdescriptor hbuild
  apply hlayout.roundTrip_iff hbase
  rw [BootInfo.InSpace, hlayout.total]
  show buffer.base.toNat + _ ≤ _
  omega

/-- A memory map with one descriptor: four pages of conventional memory at 1 MiB. -/
def onePageMap : Memory :=
  Memory.storeFields (fun _ => 0#8) 0#64 [⟨0, 4, 7⟩, ⟨8, 8, 0x100000⟩, ⟨24, 8, 4⟩]

/-- The boot information for it with a framebuffer, at 0x8000. -/
theorem boot_info_round_trip_iff_framebuffer :
    ∃ mem', gnuosBuildMultiboot2Info (fun _ => 255#8) (some onePageMap) 48#64 48#64
        (some ⟨0x8000#64, 96#64⟩)
        (some ⟨1#8, 0x80000000#64, 4096#32, 1024#32, 768#32, 32#8, 16#8, 8#8, 8#8, 8#8, 0#8, 8#8⟩)
        true = (.ok 0x8000#64, mem') ∧
      RoundTrip ⟨mem', 0x8000#64⟩ 1
        (fun i => descriptorAt onePageMap (BitVec.ofNat 64 i * 48#64))
        (some ⟨1#8, 0x80000000#64, 4096#32, 1024#32, 768#32, 32#8, 16#8, 8#8, 8#8, 8#8, 0#8,
          8#8⟩) := by
  refine ⟨_, rfl, ?_⟩
  exact (boot_info_round_trip_iff (fun _ => 255#8) onePageMap _ 48#64 48#64 0x8000#64
    ⟨0x8000#64, 96#64⟩
    (some ⟨1#8, 0x80000000#64, 4096#32, 1024#32, 768#32, 32#8, 16#8, 8#8, 8#8, 8#8, 0#8, 8#8⟩)
    (by decide) rfl (by decide) (by decide)).mpr (.inl (by decide))

/-- The boot information in the last bytes but 8 of the address space: the search for the largest
region reads beyond it. -/
theorem top_buffer_not_read_back :
    ∃ mem', gnuosBuildMultiboot2Info (fun _ => 255#8) (some onePageMap) 48#64 48#64
        (some ⟨0xFFFFFFFFFFFFFFC0#64, 56#64⟩) none true = (.ok 0xFFFFFFFFFFFFFFC0#64, mem') ∧
      (0xFFFFFFFFFFFFFFC0#64).toNat + (56#64).toNat ≤ 2 ^ 64 ∧
      ¬RoundTrip ⟨mem', 0xFFFFFFFFFFFFFFC0#64⟩ 1
        (fun i => descriptorAt onePageMap (BitVec.ofNat 64 i * 48#64)) none := by
  refine ⟨_, rfl, by decide, ?_⟩
  intro hround
  have hlayout := fillInfo_layout (fun _ => 255#8) onePageMap 48#64 1#64
    ⟨0xFFFFFFFFFFFFFFC0#64, 56#64⟩ none (by decide) (by decide) (by decide)
  have hspace := hlayout.space_of_roundTrip (by decide)
    (by rw [hlayout.total]; decide) hround
  exact absurd hspace (by decide)

end

/-! ## The page allocator -/

/-- What `kmain` finds out about the memory.  Without a region it takes 64 MiB at 1 MiB. -/
def kmainBootMemory (b : BootInfo) (kernelStart kernelEnd : BitVec 64) (fuel : ℕ) :
    Outcome BootMemory := do
  let region ← multiboot2FindLargestAvailableRegion b true fuel
  let framebuffer ← multiboot2FindFramebuffer b (some noFramebuffer) fuel
  let pmm := region.getD ⟨0x100000#64, 0x4000000#64⟩
  .value ⟨pmm.base, pmm.size, kernelStart, kernelEnd, b, framebuffer.1,
    framebuffer.2.getD noFramebuffer⟩

/-- From the firmware to the page allocator: if the memory map has a usable region, and none that
goes past the end of the address space, then `kmain` gives one of them to the allocator.  Whatever
is called after the reservations, a page that is handed out lies in it and overlaps neither the
kernel image, the boot information, the framebuffer nor the first 16 MiB. -/
theorem boot_pages_usable (mem memoryMap mem' : Memory)
    (memoryMapSize descriptorSize addr kernelStart kernelEnd : BitVec 64) (buffer : EfiBuffer)
    (framebufferInfo : Option EfiFramebufferInfo) (hdescriptor : 40 ≤ descriptorSize.toNat)
    (hbuild : gnuosBuildMultiboot2Info mem (some memoryMap) memoryMapSize descriptorSize
      (some buffer) framebufferInfo true = (.ok addr, mem'))
    (hbase : buffer.base ≠ 0#64)
    (hspace : buffer.base.toNat + buffer.sizeBytes.toNat + 16 < 2 ^ 64) :
    let n := (memoryMapSize / descriptorSize).toNat
    let d := fun i => descriptorAt memoryMap (BitVec.ofNat 64 i * descriptorSize)
    let fb := framebufferResult noFramebuffer (presentFramebuffer framebufferInfo)
    (∃ i < n, (d i).Usable ∧ (d i).length ≠ 0#64) →
    (∀ i < n, (d i).Usable → (d i).physicalStart.toNat + (d i).length.toNat ≤ 2 ^ 64) →
    ∃ i < n, (d i).Usable ∧
      let m : BootMemory := ⟨(d i).physicalStart, (d i).length, kernelStart, kernelEnd,
        ⟨mem', addr⟩, fb.1, fb.2.getD noFramebuffer⟩
      Outcome.Returns (kmainBootMemory ⟨mem', addr⟩ kernelStart kernelEnd) m ∧
      ∀ ops page, (pmmAllocPage (runOps (kmainReservations m) ops)).1 = page → page ≠ 0#64 →
        ¬ m.Live page ∧ (d i).physicalStart.toNat ≤ page.toNat ∧
          page.toNat + 4096 ≤ (d i).physicalStart.toNat + (d i).length.toNat := by
  intro n d fb ⟨j, hj, hjusable, hjne⟩ hend
  obtain ⟨rfl, hlayout, hfits⟩ := gnuosBuildMultiboot2Info_layout hdescriptor hbuild
  have htotal := hlayout.total
  have hread := (hlayout.roundTrip_iff hbase (show buffer.base.toNat + _ ≤ _ by omega)).mpr
    (.inl (show buffer.base.toNat + _ + 16 < _ by omega))
  obtain ⟨_ | r, hlargest, hfirst⟩ := hread.largest
  · exact absurd (hfirst j hj hjusable) hjne
  obtain ⟨i, hi, husable, rfl, hne, _⟩ := hfirst
  refine ⟨i, hi, husable, ?_⟩
  intro m
  -- a region of whole pages does not start in the last page
  have hpages : (d i).length.toNat % 4096 = 0 := by
    rw [EfiMemoryDescriptor.length, toNat_mul, show efiPageSize.toNat = 4096 from rfl]
    omega
  have hpos : (d i).length.toNat ≠ 0 := fun hzero => hne (eq_of_toNat_eq hzero)
  have hlast := hend i hi husable
  have hround : (d i).physicalStart.toNat + 4095 < 2 ^ 64 := by omega
  have hheader := le_of_le_of_eq (show 8 ≤ _ by omega) htotal.symm
  exact ⟨hlargest.bind ((hread.framebuffer noFramebuffer).bind (.value _)),
    fun _ _ => BootMemory.handed_out (m := m) hround hbase hheader⟩

/-- Four pages at 32 MiB. -/
theorem boot_pages_usable_high :
    let memoryMap := Memory.storeFields (fun _ => 0#8) 0#64
      [⟨0, 4, 7⟩, ⟨8, 8, 0x2000000⟩, ⟨24, 8, 4⟩]
    ∃ mem', gnuosBuildMultiboot2Info (fun _ => 255#8) (some memoryMap) 48#64 48#64
        (some ⟨0x8000#64, 96#64⟩) none true = (.ok 0x8000#64, mem') ∧
      ∃ m, Outcome.Returns (kmainBootMemory ⟨mem', 0x8000#64⟩ 0x100000#64 0x200000#64) m ∧
        ∀ ops page, (pmmAllocPage (runOps (kmainReservations m) ops)).1 = page →
          page ≠ 0#64 → ¬ m.Live page := by
  intro memoryMap
  refine ⟨_, rfl, ?_⟩
  obtain ⟨_, _, _, hreturns, hpages⟩ := boot_pages_usable (fun _ => 255#8) memoryMap _ 48#64 48#64
    0x8000#64 0x100000#64 0x200000#64 ⟨0x8000#64, 96#64⟩ none (by decide) rfl (by decide)
    (by decide) ⟨0, by decide +kernel⟩ (by decide +kernel)
  exact ⟨_, hreturns, fun ops page halloc hne => (hpages ops page halloc hne).1⟩

end GnuOS.Boot
