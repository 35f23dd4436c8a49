import GnuOS.Boot.Walk
import GnuOS.Lib.Patches

/-!
# Termination and bounds of the three functions

What the functions do with a tag that is inside the block, and the exact condition on a block under
which all three return and read nothing else.
-/

namespace GnuOS.Boot

open GnuOS.Lib BitVec

variable {b : BootInfo} {o : ℕ}

/-! ## The entries of a memory map -/

section

variable {e entrySize fuel k q : ℕ} {best best' : Available}

/-- What the loop over the entries does with the entry at offset `q`. -/
def improve (b : BootInfo) (q : ℕ) (best : Available) : Available :=
  if b.word32 (q + 16) = 1 ∧ best.size < BitVec.ofNat 64 (b.word64 (q + 8)) then
    ⟨BitVec.ofNat 64 (b.word64 q), BitVec.ofNat 64 (b.word64 (q + 8))⟩
  else best

/-- The end of `multiboot2_find_largest_available_region`. -/
def largestResult (best : Available) : Option Available :=
  if best.size = 0#64 then none else some best

/-- The loop over `k` entries from offset `q` on. -/
def improveAll (b : BootInfo) (entrySize : ℕ) : ℕ → ℕ → Available → Available
  | 0, _, best => best
  | k + 1, q, best => improveAll b entrySize k (q + entrySize) (improve b q best)

theorem considerEntry_inside (hb : b.InSpace) (hq : q + 24 ≤ b.totalSize) (best : Available) :
    considerEntry b (b.addrAt q) best = .value (improve b q best) := by
  have htype : BitVec.ofNat 32 (b.word32 (q + 16)) = multibootMemoryAvailable ↔
      b.word32 (q + 16) = 1 := ofNat_eq_iff (b.word32_lt (q + 16)) (by decide)
  unfold considerEntry improve
  rw [b.addrAt_add, b.addrAt_add, BootInfo.read32_inside hb (by omega),
    BootInfo.read64_inside hb (by omega), BootInfo.read64_inside hb (by omega)]
  simp only [Outcome.value_bind, htype]
  by_cases havail : b.word32 (q + 16) = 1
  · by_cases hlonger : best.size < BitVec.ofNat 64 (b.word64 (q + 8))
    · rw [if_pos havail, if_pos hlonger, if_pos ⟨havail, hlonger⟩]
    · rw [if_pos havail, if_neg hlonger, if_neg (fun h => hlonger h.2)]
  · rw [if_neg havail, if_neg (fun h => havail h.1)]

/-- The entries that fit before offset `e`, of which there are `k`, are all looked at. -/
theorem walkEntries_returns (hb : b.InSpace) (hlt : entrySize < 2 ^ 32) (hge : 24 ≤ entrySize)
    (he : e ≤ b.totalSize) (hfit : q + k * entrySize ≤ e) (hlast : e < q + (k + 1) * entrySize)
    (hwrap : b.addr.toNat + q + (k + 1) * entrySize < 2 ^ 64) (hfuel : k < fuel) :
    walkEntries b (BitVec.ofNat 32 entrySize) (b.addrAt e) fuel (b.addrAt q) best =
      .value (improveAll b entrySize k q best) := by
  induction k generalizing q best fuel with
  | zero =>
    rw [Nat.zero_add, Nat.one_mul] at hlast hwrap
    have htest : ¬b.addrAt (q + entrySize) ≤ b.addrAt e := by
      rw [BootInfo.addrAt_le_iff (by omega) (by omega)]
      omega
    rw [← Nat.sub_add_cancel hfuel, walkEntries, setWidth_ofNat hlt, b.addrAt_add, if_neg htest]
    rfl
  | succ k ih =>
    have hmul : (k + 1) * entrySize = k * entrySize + entrySize := Nat.succ_mul k entrySize
    have hmul' : (k + 1 + 1) * entrySize = (k + 1) * entrySize + entrySize :=
      Nat.succ_mul (k + 1) entrySize
    have htest : b.addrAt (q + entrySize) ≤ b.addrAt e := by
      rw [BootInfo.addrAt_le_iff (by omega) (by omega)]
      omega
    rw [← Nat.sub_add_cancel (Nat.one_le_of_lt hfuel), walkEntries, setWidth_ofNat hlt,
      b.addrAt_add, if_pos htest, considerEntry_inside hb (by omega)]
    exact ih (by omega) (by omega) (by omega) (by omega)

/-- If the address behind the last entry overflows, the loop goes on at the beginning of the
address space. -/
theorem walkEntries_outside (hb : b.addr.toNat + b.totalSize < 2 ^ 64)
    (hlt : entrySize < 2 ^ 32) (he : e ≤ b.totalSize) (hfit : q + k * entrySize ≤ e)
    (hlast : e < q + (k + 1) * entrySize)
    (hwrap : 2 ^ 64 ≤ b.addr.toNat + q + (k + 1) * entrySize) :
    walkEntries b (BitVec.ofNat 32 entrySize) (b.addrAt e) fuel (b.addrAt q) best ≠
      .value best' := by
  intro h
  have htotal := b.totalSize_lt
  have hend : (b.addrAt e).toNat = b.addr.toNat + e := BootInfo.toNat_addrAt (by omega)
  induction fuel generalizing k q best with
  | zero => simp [walkEntries] at h
  | succ fuel ih =>
    have hmul : (k + 1) * entrySize = k * entrySize + entrySize := Nat.succ_mul k entrySize
    have hnext := b.toNat_addrAt_mod (q + entrySize)
    have htest : b.addrAt (q + entrySize) ≤ b.addrAt e := by
      rw [le_def, hnext, hend]
      rcases k with _ | k
      · omega
      · rw [Nat.succ_mul] at hfit
        omega
    rw [walkEntries, setWidth_ofNat hlt, b.addrAt_add, if_pos htest, Outcome.bind_eq_value] at h
    rcases h with ⟨best₁, _, h⟩
    rcases k with _ | k
    · cases fuel with
      | zero => simp [walkEntries] at h
      | succ fuel =>
        -- one more entry passes the test, and it is outside of the block
        have hagain : b.addrAt (q + entrySize) + BitVec.ofNat 64 entrySize ≤ b.addrAt e := by
          rw [le_def, toNat_add, hnext, hend, toNat_ofNat]
          omega
        have hout : b.read32 (b.addrAt (q + entrySize) + 16#64) = .outside := by
          apply BootInfo.read32_outside
          rw [toNat_add, hnext, toNat_ofNat]
          omega
        rw [walkEntries, setWidth_ofNat hlt, if_pos hagain, considerEntry, hout] at h
        simp at h
    · have hmul' : (k + 1) * entrySize = k * entrySize + entrySize := Nat.succ_mul k entrySize
      exact ih (k := k) (by omega) (by omega) (by omega) h

end

/-! ## The bodies of the loops -/

namespace BootInfo

def IsMmap (b : BootInfo) (o : ℕ) : Prop := b.tagType o = 6 ∧ 16 ≤ b.tagSize o

def IsFramebuffer (b : BootInfo) (o : ℕ) : Prop := b.tagType o = 8 ∧ 32 ≤ b.tagSize o

instance (b : BootInfo) (o : ℕ) : Decidable (b.IsMmap o) := inferInstanceAs (Decidable (_ ∧ _))

instance (b : BootInfo) (o : ℕ) : Decidable (b.IsFramebuffer o) :=
  inferInstanceAs (Decidable (_ ∧ _))

/-- The number of entries that fit into a memory map. -/
def entryCount (b : BootInfo) (o : ℕ) : ℕ := (b.tagSize o - 16) / b.entrySize o

/-- The entries of a memory map and the one that would follow end inside the address space. -/
def EntriesInSpace (b : BootInfo) (o : ℕ) : Prop :=
  b.addr.toNat + (o + 16) + (b.entryCount o + 1) * b.entrySize o < 2 ^ 64

/-- The walk for the largest region goes on. -/
def MmapGoesOn (b : BootInfo) (o : ℕ) : Prop := b.IsMmap o → 24 ≤ b.entrySize o

theorem entrySize_lt (b : BootInfo) (o : ℕ) : b.entrySize o < 2 ^ 32 := b.word32_lt (o + 8)

theorem le_ofNat_tagSize (b : BootInfo) (o : ℕ) {n : ℕ} (hn : n < 2 ^ 32) :
    BitVec.ofNat 32 n ≤ BitVec.ofNat 32 (b.tagSize o) ↔ n ≤ b.tagSize o := by
  rw [← BitVec.not_lt, ofNat_lt_iff (b.tagSize_lt o) hn, Nat.not_lt]

theorem Passed.tag_le (h : b.Passed o) : o + b.tagSize o ≤ b.totalSize :=
  le_trans (Nat.add_le_add_left (b.tagSize_le_paddedSize o) o) h.fits

/-- The entries of a memory map that is inside the block. -/
theorem entryCount_spec (hmmap : b.IsMmap o) (hentry : 24 ≤ b.entrySize o) :
    o + 16 + b.entryCount o * b.entrySize o ≤ o + b.tagSize o ∧
      o + b.tagSize o < o + 16 + (b.entryCount o + 1) * b.entrySize o ∧
      b.entryCount o < b.tagSize o := by
  have hsize := hmmap.2
  have hdiv := Nat.div_add_mod (b.tagSize o - 16) (b.entrySize o)
  have hmod := Nat.mod_lt (b.tagSize o - 16) (show 0 < b.entrySize o by omega)
  have hcount : b.entryCount o ≤ b.entryCount o * b.entrySize o :=
    Nat.le_mul_of_pos_right _ (by omega)
  have hmul : (b.entryCount o + 1) * b.entrySize o =
      b.entryCount o * b.entrySize o + b.entrySize o := Nat.succ_mul _ _
  rw [Nat.mul_comm] at hdiv
  change b.entryCount o * b.entrySize o + _ = _ at hdiv
  omega

end BootInfo

section

variable (hb : b.InSpace) (ho : b.Passed o)

include hb ho

theorem mmapBody_eq (g : ℕ) (best : Available) :
    b.onTag (mmapBody b g) o best =
      if b.IsMmap o then
        if b.entrySize o < 24 then .value (.ret none)
        else
          walkEntries b (BitVec.ofNat 32 (b.entrySize o)) (b.addrAt (o + b.tagSize o)) g
            (b.addrAt (o + 16)) best >>= fun best => .value (.next best)
      else .value (.next best) := by
  have htype : _ ↔ b.tagType o = 6 := ofNat_eq_iff (b.tagType_lt o) (by decide)
  have hsize := b.le_ofNat_tagSize o (n := 16) (by decide)
  have hentry : BitVec.ofNat 32 (b.entrySize o) < 24#32 ↔ b.entrySize o < 24 :=
    ofNat_lt_iff (b.entrySize_lt o) (by decide)
  unfold BootInfo.onTag mmapBody
  by_cases hmmap : b.IsMmap o
  · have htag := ho.tag_le
    have hge := hmmap.2
    have hread : b.read32 (b.addrAt (o + 8)) = .value (BitVec.ofNat 32 (b.entrySize o)) :=
      BootInfo.read32_inside hb (by omega)
    rw [if_pos ⟨htype.mpr hmmap.1, hsize.mpr hmmap.2⟩, if_pos hmmap, b.addrAt_add, hread]
    simp only [Outcome.value_bind, hentry, setWidth_ofNat (b.tagSize_lt o), b.addrAt_add]
  · rw [if_neg (fun h => hmmap ⟨htype.mp h.1, hsize.mp h.2⟩), if_neg hmmap]

/-- The entries are all looked at if the address behind the last one does not overflow. -/
theorem mmapBody_entries (hmmap : b.IsMmap o)
    (hentry : 24 ≤ b.entrySize o) (hspace : b.EntriesInSpace o) {g : ℕ} (hg : b.totalSize ≤ g)
    (best : Available) :
    b.onTag (mmapBody b g) o best =
      .value (.next (improveAll b (b.entrySize o) (b.entryCount o) (o + 16) best)) := by
  have hspec := BootInfo.entryCount_spec hmmap hentry
  have htag := ho.tag_le
  rw [mmapBody_eq hb ho, if_pos hmmap, if_neg (by omega),
    walkEntries_returns hb (b.entrySize_lt o) hentry htag hspec.1 hspec.2.1 hspace (by omega)]
  rfl

theorem mmapBody_returns (hspace : b.IsMmap o → 24 ≤ b.entrySize o → b.EntriesInSpace o)
    (best : Available) :
    Responds b (mmapBody b) b.MmapGoesOn o best := by
  by_cases hmmap : b.IsMmap o
  · by_cases hentry : b.entrySize o < 24
    · refine ⟨.ret none, fun g _ => ?_, fun best' h => ?_⟩
      · rw [mmapBody_eq hb ho, if_pos hmmap, if_pos hentry]
      · simp at h
    · rw [not_lt] at hentry
      exact ⟨_, fun g hg => mmapBody_entries hb ho hmmap hentry (hspace hmmap hentry) hg best,
        fun best' _ _ => hentry⟩
  · refine ⟨.next best, fun g _ => ?_, fun best' _ h => absurd h hmmap⟩
    rw [mmapBody_eq hb ho, if_neg hmmap]

theorem mmapBody_goesOn (hgoes : b.MmapGoesOn o) {g : ℕ}
    {best : Available} {flow : Flow Available (Option Available)}
    (h : b.onTag (mmapBody b g) o best = .value flow) : ∃ best', flow = .next best' := by
  rw [mmapBody_eq hb ho] at h
  by_cases hmmap : b.IsMmap o
  · have hentry := hgoes hmmap
    rw [if_pos hmmap, if_neg (by omega), Outcome.bind_eq_value] at h
    rcases h with ⟨best', _, h⟩
    exact ⟨best', (Outcome.value.inj h).symm⟩
  · rw [if_neg hmmap] at h
    exact ⟨best, (Outcome.value.inj h).symm⟩

end

/-! ## The framebuffer -/

/-- What is read from a framebuffer tag. -/
def framebufferAt (b : BootInfo) (o : ℕ) : FramebufferInfo where
  address := BitVec.ofNat 64 (b.word64 (o + 8))
  pitch := BitVec.ofNat 32 (b.word32 (o + 16))
  width := BitVec.ofNat 32 (b.word32 (o + 20))
  height := BitVec.ofNat 32 (b.word32 (o + 24))
  bpp := BitVec.ofNat 8 (b.word8 (o + 28))
  type := BitVec.ofNat 8 (b.word8 (o + 29))
  redFieldPosition := 0#8
  redMaskSize := 0#8
  greenFieldPosition := 0#8
  greenMaskSize := 0#8
  blueFieldPosition := 0#8
  blueMaskSize := 0#8

def coloursAt (b : BootInfo) (q : ℕ) (info : FramebufferInfo) : FramebufferInfo :=
  { info with
    redFieldPosition := BitVec.ofNat 8 (b.word8 q)
    redMaskSize := BitVec.ofNat 8 (b.word8 (q + 1))
    greenFieldPosition := BitVec.ofNat 8 (b.word8 (q + 2))
    greenMaskSize := BitVec.ofNat 8 (b.word8 (q + 3))
    blueFieldPosition := BitVec.ofNat 8 (b.word8 (q + 4))
    blueMaskSize := BitVec.ofNat 8 (b.word8 (q + 5)) }

theorem readFramebuffer_inside (hb : b.InSpace) (ho : o + 32 ≤ b.totalSize) :
    readFramebuffer b (b.addrAt o) = .value (framebufferAt b o) := by
  unfold readFramebuffer
  simp only [b.addrAt_add]
  rw [BootInfo.read64_inside hb (by omega), BootInfo.read32_inside hb (by omega),
    BootInfo.read32_inside hb (by omega), BootInfo.read32_inside hb (by omega),
    BootInfo.read8_inside hb (by omega), BootInfo.read8_inside hb (by omega)]
  rfl

theorem readColours_inside {q : ℕ} (hb : b.InSpace) (hq : q + 6 ≤ b.totalSize)
    (info : FramebufferInfo) :
    readColours b (b.addrAt q) info = .value (coloursAt b q info) := by
  unfold readColours
  simp only [b.addrAt_add]
  rw [BootInfo.read8_inside hb (by omega), BootInfo.read8_inside hb (by omega),
    BootInfo.read8_inside hb (by omega), BootInfo.read8_inside hb (by omega),
    BootInfo.read8_inside hb (by omega), BootInfo.read8_inside hb (by omega)]
  rfl

/-- The address behind the colours of a framebuffer tag does not overflow. -/
def ColoursInSpace (b : BootInfo) (o : ℕ) : Prop :=
  b.word8 (o + 29) = 1 → b.addr.toNat + (o + 38) < 2 ^ 64

theorem framebufferAt_type_iff (b : BootInfo) (o : ℕ) :
    (framebufferAt b o).type = multibootFramebufferTypeRgb ↔ b.word8 (o + 29) = 1 :=
  ofNat_eq_iff (Memory.load_lt b.memory _ 1) (by decide)

theorem framebufferBody_eq (hb : b.InSpace) (ho : b.Passed o) (info : FramebufferInfo) :
    b.onTag (framebufferBody b) o info =
      if b.IsFramebuffer o then
        if b.word8 (o + 29) = 1 then
          if b.addrAt (o + b.tagSize o) < b.addrAt (o + 38) then
            .value (.ret (false, framebufferAt b o))
          else
            readColours b (b.addrAt (o + 32)) (framebufferAt b o) >>= fun info =>
              .value (.ret (true, info))
        else .value (.ret (true, framebufferAt b o))
      else .value (.next info) := by
  have htype : _ ↔ b.tagType o = 8 := ofNat_eq_iff (b.tagType_lt o) (by decide)
  have hsize := b.le_ofNat_tagSize o (n := 32) (by decide)
  have hrgb := framebufferAt_type_iff b o
  unfold BootInfo.onTag framebufferBody
  by_cases hfb : b.IsFramebuffer o
  · have htag := ho.tag_le
    have hge := hfb.2
    rw [if_pos ⟨htype.mpr hfb.1, hsize.mpr hfb.2⟩, if_pos hfb, readFramebuffer_inside hb (by omega)]
    simp only [Outcome.value_bind, hrgb, setWidth_ofNat (b.tagSize_lt o), b.addrAt_add,
      Nat.add_assoc, Nat.reduceAdd]
  · rw [if_neg (fun h => hfb ⟨htype.mp h.1, hsize.mp h.2⟩), if_neg hfb]

/-- The result for an RGB framebuffer. -/
theorem framebufferBody_rgb (hb : b.InSpace) (ho : b.Passed o) (hfb : b.IsFramebuffer o)
    (hrgb : b.word8 (o + 29) = 1) (hsize : 38 ≤ b.tagSize o)
    (hspace : b.addr.toNat + (o + b.tagSize o) < 2 ^ 64) (info : FramebufferInfo) :
    b.onTag (framebufferBody b) o info =
      .value (.ret (true, coloursAt b (o + 32) (framebufferAt b o))) := by
  have htag := ho.tag_le
  have hfits : ¬b.addrAt (o + b.tagSize o) < b.addrAt (o + 38) := by
    rw [BootInfo.addrAt_lt_iff hspace (by omega)]
    omega
  rw [framebufferBody_eq hb ho, if_pos hfb, if_pos hrgb, if_neg hfits,
    readColours_inside hb (by omega)]
  rfl

theorem framebufferBody_returns (hb : b.addr.toNat + b.totalSize < 2 ^ 64) (ho : b.Passed o)
    (hspace : b.IsFramebuffer o → ColoursInSpace b o) (info : FramebufferInfo) :
    Responds b (fun _ => framebufferBody b) (fun o => ¬b.IsFramebuffer o) o info := by
  have hin : b.InSpace := le_of_lt hb
  have htag := ho.tag_le
  by_cases hfb : b.IsFramebuffer o
  swap
  · refine ⟨.next info, fun g _ => ?_, fun _ _ => hfb⟩
    rw [framebufferBody_eq hin ho, if_neg hfb]
  by_cases hrgb : b.word8 (o + 29) = 1
  swap
  · refine ⟨.ret (true, framebufferAt b o), fun g _ => ?_, fun _ h => absurd h (by simp)⟩
    rw [framebufferBody_eq hin ho, if_pos hfb, if_neg hrgb]
  have hcolours := hspace hfb hrgb
  by_cases hsize : 38 ≤ b.tagSize o
  · exact ⟨_, fun g _ => framebufferBody_rgb hin ho hfb hrgb hsize (by omega) info,
      fun _ h => absurd h (by simp)⟩
  · refine ⟨.ret (false, framebufferAt b o), fun g _ => ?_, fun _ h => absurd h (by simp)⟩
    have hshort : b.addrAt (o + b.tagSize o) < b.addrAt (o + 38) := by
      rw [BootInfo.addrAt_lt_iff (by omega) hcolours]
      omega
    rw [framebufferBody_eq hin ho, if_pos hfb, if_pos hrgb, if_pos hshort]

variable {info : FramebufferInfo}

/-- If the address behind the colours overflows, they are read although they are outside. -/
theorem framebufferBody_outside (hb : b.addr.toNat + b.totalSize < 2 ^ 64) (ho : b.Passed o)
    (hfb : b.IsFramebuffer o) (hspace : ¬ColoursInSpace b o)
    {flow : Flow FramebufferInfo (Bool × FramebufferInfo)} :
    b.onTag (framebufferBody b) o info ≠ .value flow := by
  intro h
  have htotal := b.totalSize_lt
  have htag := ho.tag_le
  rw [ColoursInSpace, Classical.not_imp] at hspace
  have hfits : ¬b.addrAt (o + b.tagSize o) < b.addrAt (o + 38) := by
    rw [lt_def, BootInfo.toNat_addrAt (by omega), b.toNat_addrAt_mod]
    omega
  rw [framebufferBody_eq (le_of_lt hb) ho, if_pos hfb, if_pos hspace.1, if_neg hfits,
    Outcome.bind_eq_value] at h
  rcases h with ⟨info', h, _⟩
  -- the last of the six bytes is outside of the block
  have hlast : b.read8 (b.addrAt (o + 32) + 5#64) = .outside := by
    rw [BootInfo.read8, BootInfo.read, Region.read_of_outside]
    · rfl
    · show ¬(b.addr.toNat ≤ _ ∧ _ ≤ b.addr.toNat + b.totalSize)
      rw [b.addrAt_add, b.toNat_addrAt_mod]
      omega
  unfold readColours at h
  simp only [Outcome.bind_eq_value] at h
  obtain ⟨_, _, _, _, _, _, _, _, _, _, _, hread, _⟩ := h
  rw [hlast] at hread
  simp at hread

/-! ## The ACPI root pointer -/

theorem rsdpBody_next {r : Rsdp} {flow : Flow Rsdp (Option (BitVec 64 × BitVec 8))}
    (h : b.onTag (rsdpBody b) o r = .value flow) : ∃ r', flow = .next r' := by
  unfold BootInfo.onTag rsdpBody at h
  split at h
  · split at h
    · exact ⟨_, (Outcome.value.inj h).symm⟩
    · exact ⟨_, (Outcome.value.inj h).symm⟩
  split at h
  · rw [Outcome.bind_eq_value] at h
    rcases h with ⟨revision, _, h⟩
    exact ⟨_, (Outcome.value.inj h).symm⟩
  · exact ⟨_, (Outcome.value.inj h).symm⟩

theorem rsdpBody_returns (hb : b.InSpace) (ho : b.Passed o) (r : Rsdp) :
    Responds b (fun _ => rsdpBody b) (fun _ => True) o r := by
  have htag := ho.tag_le
  have hsize := b.le_ofNat_tagSize o (n := 44) (by decide)
  have hvalue : ∃ flow, b.onTag (rsdpBody b) o r = .value flow := by
    unfold BootInfo.onTag rsdpBody
    split
    · split
      · exact ⟨_, rfl⟩
      · exact ⟨_, rfl⟩
    split
    · rename_i hnew
      have hge := hsize.mp hnew.2
      rw [b.addrAt_add, b.addrAt_add, BootInfo.read8_inside hb (by omega)]
      exact ⟨_, rfl⟩
    · exact ⟨_, rfl⟩
  obtain ⟨flow, hflow⟩ := hvalue
  exact ⟨flow, fun _ _ => hflow, fun _ _ => trivial⟩

/-! ## The three functions -/

/-- The three functions return, and read the block only. -/
structure Safe (b : BootInfo) : Prop where
  largest : ∀ outsPresent, ∃ r,
    Outcome.Returns (multiboot2FindLargestAvailableRegion b outsPresent) r
  framebuffer : ∀ outInfo, ∃ r, Outcome.Returns (multiboot2FindFramebuffer b outInfo) r
  rsdp : ∀ outPresent, ∃ r, Outcome.Returns (multiboot2FindAcpiRsdp b outPresent) r

/-- The header has its first field, and no sum overflows: neither in the rounding of a size nor in
the addresses of the tags that a function comes to, of the entries of a memory map and of the
colours of a framebuffer. -/
structure Walkable (b : BootInfo) : Prop where
  header : 4 ≤ b.totalSize
  steady : Steady b
  entries : ∀ o, b.TagAt b.MmapGoesOn o → b.Passed o → b.IsMmap o → 24 ≤ b.entrySize o →
    b.EntriesInSpace o
  colours : ∀ o, b.TagAt (fun o => ¬b.IsFramebuffer o) o → b.Passed o → b.IsFramebuffer o →
    ColoursInSpace b o

/-- Without a block nothing is read. -/
theorem safe_of_null (h : b.addr = 0#64) : Safe b where
  largest outs := by
    refine ⟨none, 0, fun fuel _ => ?_⟩
    rw [multiboot2FindLargestAvailableRegion, if_pos (.inr h)]
  framebuffer info := by
    refine ⟨(false, info), 0, fun fuel _ => ?_⟩
    cases info with
    | none => rfl
    | some info =>
      show (if b.addr = 0#64 then _ else _) = _
      rw [if_pos h]
  rsdp out := by
    refine ⟨none, 0, fun fuel _ => ?_⟩
    rw [multiboot2FindAcpiRsdp, if_pos (.inr h)]

/-- A tag without a payload changes nothing. -/
theorem mmapBody_empty (g : ℕ) (a : BitVec 64) (type : BitVec 32) (best : Available) :
    mmapBody b g a type 8#32 best = .value (.next best) := if_neg (by simp)

theorem framebufferBody_empty (a : BitVec 64) (type : BitVec 32) (info : FramebufferInfo) :
    framebufferBody b a type 8#32 info = .value (.next info) := if_neg (by simp)

theorem rsdpBody_empty (a : BitVec 64) (type : BitVec 32) (r : Rsdp) :
    rsdpBody b a type 8#32 r = .value (.next r) := by
  simp [rsdpBody]

section

variable (h : Walkable b) (hb : b.InSpace)

include h hb

theorem Walkable.largest (outs : Bool) :
    ∃ r, Outcome.Returns (multiboot2FindLargestAvailableRegion b outs) r := by
  by_cases hnull : outs = false ∨ b.addr = 0#64
  · refine ⟨none, 0, fun fuel _ => ?_⟩
    rw [multiboot2FindLargestAvailableRegion, if_pos hnull]
  obtain ⟨r, hr⟩ := walkBlock_returns hb h.header h.steady
    (fun o s ho hpassed => mmapBody_returns hb hpassed (h.entries o ho hpassed) s)
    mmapBody_empty ⟨0#64, 0#64⟩
  refine ⟨r, b.totalSize + 2, fun fuel hfuel => ?_⟩
  rw [multiboot2FindLargestAvailableRegion, if_neg hnull]
  exact hr fuel hfuel

theorem Walkable.framebuffer (info : Option FramebufferInfo) :
    ∃ r, Outcome.Returns (multiboot2FindFramebuffer b info) r := by
  cases info with
  | none => exact ⟨_, Outcome.Returns.value _⟩
  | some info =>
    by_cases hnull : b.addr = 0#64
    · refine ⟨(false, some info), 0, fun fuel _ => ?_⟩
      rw [multiboot2FindFramebuffer, if_pos hnull]
    obtain ⟨r, hr⟩ := walkBlock_returns hb h.header h.steady
      (fun o s ho hpassed => framebufferBody_returns ho.end_lt hpassed (h.colours o ho hpassed) s)
      (fun _ => framebufferBody_empty) info
    refine ⟨(r.1, some r.2), b.totalSize + 2, fun fuel hfuel => ?_⟩
    rw [multiboot2FindFramebuffer, if_neg hnull, hr fuel hfuel]
    rfl

theorem Walkable.rsdp (out : Bool) :
    ∃ r, Outcome.Returns (multiboot2FindAcpiRsdp b out) r := by
  by_cases hnull : out = false ∨ b.addr = 0#64
  · refine ⟨none, 0, fun fuel _ => ?_⟩
    rw [multiboot2FindAcpiRsdp, if_pos hnull]
  obtain ⟨r, hr⟩ := walkBlock_returns hb h.header h.steady
    (fun o s _ hpassed => rsdpBody_returns hb hpassed s) (fun _ => rsdpBody_empty)
    ⟨0#64, 0#64, 0#8⟩
  refine ⟨r, b.totalSize + 2, fun fuel hfuel => ?_⟩
  rw [multiboot2FindAcpiRsdp, if_neg hnull]
  exact hr fuel hfuel

end

/-- The search for the root pointer looks at every tag. -/
theorem steady_of_rsdp (hb : b.InSpace) (hnull : b.addr ≠ 0#64)
    {r : Option (BitVec 64 × BitVec 8)} (h : Outcome.Returns (multiboot2FindAcpiRsdp b true) r) :
    4 ≤ b.totalSize ∧ Steady b := by
  rcases h with ⟨fuel, h⟩
  have hvalue := h fuel (le_refl fuel)
  rw [multiboot2FindAcpiRsdp, if_neg (by simp [hnull])] at hvalue
  have hheader : 4 ≤ b.totalSize := by
    by_contra hshort
    rw [walkBlock_of_short (by omega)] at hvalue
    simp at hvalue
  refine ⟨hheader, ?_⟩
  rw [walkBlock_eq hb hheader] at hvalue
  by_cases hshort : b.totalSize < 8
  · -- there are no tags
    have hnone : ∀ {goesOn : ℕ → Prop} o, ¬b.TagAt goesOn o := by
      intro goesOn o ho
      have hle := ho.le
      omega
    exact ⟨fun o ho => absurd ho (hnone o), fun o ho => absurd ho (hnone o),
      fun o ho => absurd ho (hnone o)⟩
  · rw [if_neg hshort] at hvalue
    exact steady_of_walkFrom (fun o s flow => rsdpBody_next) hvalue

/-- Every memory map that the search for the largest region comes to. -/
theorem entriesInSpace_of_largest (hheader : 4 ≤ b.totalSize) (hnull : b.addr ≠ 0#64)
    {r : Option Available}
    (h : Outcome.Returns (multiboot2FindLargestAvailableRegion b true) r)
    (ho : b.TagAt b.MmapGoesOn o) (hpassed : b.Passed o) (hmmap : b.IsMmap o)
    (hentry : 24 ≤ b.entrySize o) : b.EntriesInSpace o := by
  by_contra hwrap
  have hend := ho.end_lt
  have hb : b.InSpace := le_of_lt hend
  rcases h with ⟨fuel, h⟩
  have hvalue := h fuel (le_refl fuel)
  have hle := ho.le
  rw [multiboot2FindLargestAvailableRegion, if_neg (by simp [hnull]), walkBlock_eq hb hheader,
    if_neg (by omega)] at hvalue
  obtain ⟨best, flow, hflow⟩ := onTag_of_walkFrom ho hpassed
    (fun o s flow hpassed hgoes => mmapBody_goesOn hb hpassed hgoes) hvalue
  rw [mmapBody_eq hb hpassed, if_pos hmmap, if_neg (by omega), Outcome.bind_eq_value] at hflow
  obtain ⟨best', hwalk, _⟩ := hflow
  have hspec := BootInfo.entryCount_spec hmmap hentry
  exact walkEntries_outside hend (b.entrySize_lt o) hpassed.tag_le hspec.1 hspec.2.1
    (not_lt.mp hwrap) hwalk

/-- Every framebuffer that the search for one comes to. -/
theorem coloursInSpace_of_framebuffer (hheader : 4 ≤ b.totalSize) (hnull : b.addr ≠ 0#64)
    {r : Bool × Option FramebufferInfo}
    (h : Outcome.Returns (multiboot2FindFramebuffer b (some info)) r)
    (ho : b.TagAt (fun o => ¬b.IsFramebuffer o) o) (hpassed : b.Passed o)
    (hfb : b.IsFramebuffer o) :
    ColoursInSpace b o := by
  by_contra hwrap
  have hend := ho.end_lt
  have hb : b.InSpace := le_of_lt hend
  rcases h with ⟨fuel, h⟩
  have hvalue := h fuel (le_refl fuel)
  have hle := ho.le
  rw [multiboot2FindFramebuffer, if_neg hnull, Outcome.bind_eq_value] at hvalue
  rcases hvalue with ⟨result, hvalue, _⟩
  rw [walkBlock_eq hb hheader, if_neg (by omega)] at hvalue
  have hbody : ∀ o s flow, b.Passed o → ¬b.IsFramebuffer o →
      b.onTag (framebufferBody b) o s = .value flow → ∃ s', flow = .next s' := by
    intro o s flow hpassed hother hflow
    rw [framebufferBody_eq hb hpassed, if_neg hother] at hflow
    exact ⟨s, (Outcome.value.inj hflow).symm⟩
  obtain ⟨info', flow, hflow⟩ := onTag_of_walkFrom ho hpassed hbody hvalue
  exact framebufferBody_outside hend hpassed hfb hwrap hflow

/-- If the three functions return, no sum overflows. -/
theorem walkable_of_returns (hb : b.InSpace) (hnull : b.addr ≠ 0#64) {r : Option Available}
    {r' : Bool × Option FramebufferInfo} {r'' : Option (BitVec 64 × BitVec 8)}
    (hlargest : Outcome.Returns (multiboot2FindLargestAvailableRegion b true) r)
    (hframebuffer : Outcome.Returns (multiboot2FindFramebuffer b (some info)) r')
    (hrsdp : Outcome.Returns (multiboot2FindAcpiRsdp b true) r'') : Walkable b := by
  obtain ⟨hheader, hsteady⟩ := steady_of_rsdp hb hnull hrsdp
  exact {
    header := hheader
    steady := hsteady
    entries := fun o => entriesInSpace_of_largest hheader hnull hlargest
    colours := fun o => coloursInSpace_of_framebuffer hheader hnull hframebuffer }

/-- The three functions return and read a block inside the address space only, if and only if there
is no block or no sum overflows on the way over its tags. -/
theorem multiboot2_safe_iff (b : BootInfo) (hb : b.InSpace) :
    Safe b ↔ b.addr = 0#64 ∨ Walkable b := by
  constructor
  · intro h
    by_cases hnull : b.addr = 0#64
    · exact .inl hnull
    right
    rcases h.largest true with ⟨_, hlargest⟩
    rcases h.framebuffer (some noFramebuffer) with ⟨_, hframebuffer⟩
    rcases h.rsdp true with ⟨_, hrsdp⟩
    exact walkable_of_returns hb hnull hlargest hframebuffer hrsdp
  · intro h
    rcases h with hnull | hwalk
    · exact safe_of_null hnull
    · exact ⟨hwalk.largest hb, hwalk.framebuffer hb, hwalk.rsdp hb⟩

/-- A block of 56 bytes at 0x9000: a memory map with 16 KiB at 1 MiB, and the end tag. -/
def memoryMapBlock : BootInfo where
  memory := Memory.ofWords 0x9000#64
    [56#64, 0x2800000006#64, 24#64, 0x100000#64, 0x4000#64, 1#64, 0x800000000#64]
  addr := 0x9000#64

theorem multiboot2_safe_iff_memory_map :
    memoryMapBlock.InSpace ∧ memoryMapBlock.IsMmap 8 ∧ Safe memoryMapBlock := by
  have hspace : memoryMapBlock.InSpace := by
    unfold BootInfo.InSpace
    decide +kernel
  have hat {goesOn : ℕ → Prop} {o : ℕ} (h : memoryMapBlock.TagAt goesOn o) : o = 8 ∨ o = 48 := by
    induction h with
    | first _ _ => exact .inl rfl
    | next o _ hpassed _ ih =>
      obtain rfl | rfl := ih
      · exact .inr (by decide +kernel)
      · exact absurd (by decide +kernel) hpassed.notEnd
  have hwalk : Walkable memoryMapBlock := by
    refine ⟨by decide +kernel, ⟨?_, ?_, ?_⟩, ?_, ?_⟩
    all_goals
      intro o ho
      obtain rfl | rfl := hat ho
      all_goals intros
    · decide +kernel
    · decide +kernel
    · decide +kernel
    · decide +kernel
    · decide +kernel
    · decide +kernel
    · unfold BootInfo.EntriesInSpace
      decide +kernel
    · unfold BootInfo.EntriesInSpace
      decide +kernel
    · unfold ColoursInSpace
      decide +kernel
    · unfold ColoursInSpace
      decide +kernel
  exact ⟨hspace, by decide +kernel, (multiboot2_safe_iff memoryMapBlock hspace).mpr (.inr hwalk)⟩

/-- A block at 0x9000 with one tag, given by its type and size. -/
def oneTagBlock (type size : ℕ) : BootInfo where
  memory :=
    Memory.store (Memory.store (fun _ => 0#8) 0x9000#64 4 16) 0x9008#64 8 (type + 2 ^ 32 * size)
  addr := 0x9000#64

/-- A tag of size 2^32 - 1: the rounded size is 0, and the walk stays where it is. -/
theorem huge_tag_not_safe :
    (oneTagBlock 1 (2 ^ 32 - 1)).InSpace ∧ ¬Safe (oneTagBlock 1 (2 ^ 32 - 1)) := by
  have hsize : (oneTagBlock 1 (2 ^ 32 - 1)).totalSize = 16 := by decide +kernel
  have hspace : (oneTagBlock 1 (2 ^ 32 - 1)).InSpace := by
    unfold BootInfo.InSpace
    rw [hsize]
    decide
  refine ⟨hspace, ?_⟩
  intro hsafe
  rcases hsafe.rsdp true with ⟨r, hr⟩
  have hsteady := (steady_of_rsdp hspace (by decide) hr).2
  have hbound := hsteady.rounding 8 (.first (by omega) (by rw [hsize]; decide)) (by omega)
    (by decide +kernel)
  exact absurd hbound (by decide +kernel)

end GnuOS.Boot
