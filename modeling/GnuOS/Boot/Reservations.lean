import GnuOS.Boot.Multiboot2
import GnuOS.Lib.Patches
import GnuOS.Pmm.Window

/-!
# Memory reserved at boot

A model of the functions of `kernel/init/kmain.c` that take memory in use away from the page
allocator, and of the part of `kmain` that calls them.  No run of the allocator after them hands
such memory out, unless the base of the memory region lies in the last page of the address space.
-/

namespace GnuOS.Boot

open GnuOS.Lib GnuOS.Pmm
open BitVec hiding not_or

/-! ## Model -/

def dmaLegacyWindowEnd : BitVec 64 := 0x01000000#64

/-- `clamp_end` -/
def clampEnd (base size : BitVec 64) : BitVec 64 :=
  if base > allOnes 64 - size then allOnes 64 else base + size

/-- `framebuffer_size_bytes` -/
def framebufferSizeBytes : Option FramebufferInfo → BitVec 64
  | none => 0#64
  | some framebuffer =>
    let pitch := framebuffer.pitch.setWidth 64
    let height := framebuffer.height.setWidth 64
    if pitch = 0#64 ∨ height = 0#64 then 0#64
    else if pitch > allOnes 64 / height then 0#64
    else pitch * height

/-- `reserve_dma_low_window` -/
def reserveDmaLowWindow (s : PmmState) (pmmBase pmmSize : BitVec 64) : PmmState :=
  if pmmSize = 0#64 ∨ pmmBase ≥ dmaLegacyWindowEnd then s
  else
    let pmmEnd := clampEnd pmmBase pmmSize
    let pmmEnd := if pmmEnd > dmaLegacyWindowEnd then dmaLegacyWindowEnd else pmmEnd
    if pmmEnd ≤ pmmBase then s
    else pmmReserveRange s pmmBase (pmmEnd - pmmBase)

/-- `reserve_multiboot_info`; the header has 8 bytes. -/
def reserveMultibootInfo (s : PmmState) (b : BootInfo) : PmmState :=
  if b.addr = 0#64 then s
  else if b.totalSize < 8 then s
  else pmmReserveRange s b.addr (BitVec.ofNat 64 b.totalSize)

/-- `reserve_framebuffer_mmio` -/
def reserveFramebufferMmio (s : PmmState) (haveFramebuffer : Bool) :
    Option FramebufferInfo → PmmState
  | none => s
  | some framebuffer =>
    if haveFramebuffer = false then s
    else
      let fbSize := framebufferSizeBytes (some framebuffer)
      if fbSize = 0#64 then s
      else pmmReserveRange s framebuffer.address fbSize

/-- What `kmain` knows about the memory when it sets up the page allocator. -/
structure BootMemory where
  pmmBase : BitVec 64
  pmmSize : BitVec 64
  kernelStart : BitVec 64
  kernelEnd : BitVec 64
  bootInfo : BootInfo
  haveFramebuffer : Bool
  framebufferInfo : FramebufferInfo

/-- The calls of `kmain` from `pmm_init` to `reserve_framebuffer_mmio`. -/
def kmainReservations (m : BootMemory) : PmmState :=
  let s := pmmInit m.pmmBase m.pmmSize
  let kernelSize := m.kernelEnd - m.kernelStart
  let s := pmmReserveRange s m.kernelStart kernelSize
  let s := reserveDmaLowWindow s m.pmmBase m.pmmSize
  let s := reserveMultibootInfo s m.bootInfo
  reserveFramebufferMmio s m.haveFramebuffer (some m.framebufferInfo)

/-! ## Live memory -/

/-- The page overlaps the kernel image, the boot information, the framebuffer, or the memory below
16 MiB. -/
def BootMemory.Live (m : BootMemory) (page : BitVec 64) : Prop :=
  Touches page m.kernelStart.toNat (m.kernelEnd.toNat - m.kernelStart.toNat) ∨
  Touches page m.bootInfo.addr.toNat m.bootInfo.totalSize ∨
  (m.haveFramebuffer = true ∧ Touches page m.framebufferInfo.address.toNat
    (m.framebufferInfo.pitch.toNat * m.framebufferInfo.height.toNat)) ∨
  page.toNat < 16 * 1024 * 1024

instance (m : BootMemory) (page : BitVec 64) : Decidable (m.Live page) :=
  inferInstanceAs (Decidable (_ ∨ _ ∨ _ ∧ _ ∨ _))

/-- Whatever calls of the allocator follow, the next page it hands out is not live. -/
def BootMemory.Protected (m : BootMemory) : Prop :=
  ∀ ops : List PmmOp, ∀ page : BitVec 64,
    (pmmAllocPage (runOps (kmainReservations m) ops)).1 = page → page ≠ 0#64 → ¬ m.Live page

/-! ## Reserving before anything is allocated -/

/-- The allocator before its first page is handed out. -/
structure Unallocated (s : PmmState) : Prop where
  good : Good s
  aligned : s.base.toNat % 4096 = 0
  status : ∀ p, p < s.totalPages → pageStatus s p ≠ .allocated

/-- `t` is `s` with more pages reserved, all those at an address with `R` among them. -/
structure Reserves (s t : PmmState) (R : BitVec 64 → Prop) : Prop where
  unallocated : Unallocated t
  base : t.base = s.base
  total : t.totalPages = s.totalPages
  reserved : ∀ p, p < s.totalPages → pageStatus s p = .reserved ∨ R (pageAddr s p) →
    pageStatus t p = .reserved

section
variable {s t u : PmmState} {R R' : BitVec 64 → Prop}

/-- Nothing to do where no managed page has `R`. -/
theorem Unallocated.reserves_nothing (hs : Unallocated s)
    (hR : ∀ p, p < s.totalPages → ¬ R (pageAddr s p)) : Reserves s s R := by
  refine ⟨hs, rfl, rfl, ?_⟩
  intro p hp h
  rcases h with h | h
  · exact h
  · exact absurd h (hR p hp)

theorem Unallocated.reserves_range (hs : Unallocated s) (base size : BitVec 64) :
    Reserves s (pmmReserveRange s base size) fun page => Touches page base.toNat size.toNat := by
  obtain ⟨hG, hb, ht⟩ := good_exec hs.good (.reserveRange base size)
  have hstatus : ∀ p, p < s.totalPages → pageStatus (pmmReserveRange s base size) p = _ :=
    fun p hp => pmmReserveRange_status hs.good hs.aligned base size hp
  refine ⟨⟨hG, ?_, ?_⟩, hb, ht, ?_⟩
  · rw [show (pmmReserveRange s base size).base = s.base from hb]
    exact hs.aligned
  · intro p hp
    rw [show (pmmReserveRange s base size).totalPages = s.totalPages from ht] at hp
    rw [hstatus p hp]
    split
    · decide
    · exact hs.status p hp
  · intro p hp h
    rw [hstatus p hp]
    by_cases hfree : Touches (pageAddr s p) base.toNat size.toNat ∧ pageStatus s p = .free
    · rw [if_pos hfree]
    · rw [if_neg hfree]
      -- a touched page is not allocated, so it was reserved before
      rcases h with h | h
      · exact h
      · cases hst : pageStatus s p with
        | unused => exact absurd hst (hs.good.inv.status_ne_unused hp)
        | free => exact absurd ⟨h, hst⟩ hfree
        | allocated => exact absurd hst (hs.status p hp)
        | reserved => rfl

theorem Reserves.mono (h : Reserves s t R)
    (hR : ∀ p, p < s.totalPages → R' (pageAddr s p) → R (pageAddr s p)) : Reserves s t R' := by
  refine ⟨h.unallocated, h.base, h.total, ?_⟩
  intro p hp hp'
  exact h.reserved p hp (hp'.imp_right (hR p hp))

theorem Reserves.trans (h : Reserves s t R) (h' : Reserves t u R') :
    Reserves s u fun page => R page ∨ R' page := by
  refine ⟨h'.unallocated, h'.base.trans h.base, h'.total.trans h.total, ?_⟩
  intro p hp hp'
  have haddr : pageAddr t p = pageAddr s p := by rw [pageAddr, pageAddr, h.base]
  apply h'.reserved p (by rw [h.total]; exact hp)
  rw [haddr]
  rcases hp' with hst | hR | hR'
  · exact .inl (h.reserved p hp (.inl hst))
  · exact .inl (h.reserved p hp (.inr hR))
  · exact .inr hR'

/-! ## The four reservations -/

/-- The kernel image; it is empty if its end is not above its start. -/
theorem Unallocated.reserves_kernel (hs : Unallocated s) (kernelStart kernelEnd : BitVec 64) :
    Reserves s (pmmReserveRange s kernelStart (kernelEnd - kernelStart)) fun page =>
      Touches page kernelStart.toNat (kernelEnd.toNat - kernelStart.toNat) := by
  apply (hs.reserves_range kernelStart (kernelEnd - kernelStart)).mono
  intro p hp htouch
  rw [touches_iff] at htouch ⊢
  have hle : kernelStart ≤ kernelEnd := by
    rw [le_def]
    omega
  rw [toNat_sub_of_le hle]
  exact htouch

theorem Unallocated.reserves_info (hs : Unallocated s) {b : BootInfo} (hnull : b.addr ≠ 0#64)
    (hheader : 8 ≤ b.totalSize) :
    Reserves s (reserveMultibootInfo s b) fun page => Touches page b.addr.toNat b.totalSize := by
  have hsize : (BitVec.ofNat 64 b.totalSize).toNat = b.totalSize := by
    have hlt := Memory.load_lt b.memory b.addr 4
    rw [toNat_ofNat]
    apply Nat.mod_eq_of_lt
    exact lt_trans hlt (by decide)
  have hreserves := hs.reserves_range b.addr (BitVec.ofNat 64 b.totalSize)
  rw [hsize] at hreserves
  rw [reserveMultibootInfo, if_neg hnull, if_neg (by omega)]
  exact hreserves

/-- The product of the two 32-bit numbers does not overflow. -/
theorem toNat_framebufferSizeBytes (framebuffer : FramebufferInfo) :
    (framebufferSizeBytes (some framebuffer)).toNat =
      framebuffer.pitch.toNat * framebuffer.height.toNat := by
  have hpitch := framebuffer.pitch.isLt
  have hheight := framebuffer.height.isLt
  have hpitch' : (framebuffer.pitch.setWidth 64).toNat = framebuffer.pitch.toNat := by
    rw [toNat_setWidth]
    omega
  have hheight' : (framebuffer.height.setWidth 64).toNat = framebuffer.height.toNat := by
    rw [toNat_setWidth]
    omega
  simp only [framebufferSizeBytes]
  by_cases hzero : framebuffer.pitch.setWidth 64 = 0#64 ∨ framebuffer.height.setWidth 64 = 0#64
  · rw [if_pos hzero]
    rcases hzero with h | h
    · rw [← hpitch', h]
      simp
    · rw [← hheight', h]
      simp
  rw [if_neg hzero]
  have hpos : 0 < framebuffer.height.toNat := by
    rw [Nat.pos_iff_ne_zero]
    intro h
    exact hzero (.inr (eq_of_toNat_eq (hheight'.trans h)))
  have hmul : framebuffer.pitch.toNat * framebuffer.height.toNat ≤ (2 ^ 32 - 1) * (2 ^ 32 - 1) :=
    Nat.mul_le_mul (by omega) (by omega)
  have hfits : ¬ framebuffer.pitch.setWidth 64 >
      allOnes 64 / framebuffer.height.setWidth 64 := by
    rw [gt_iff_lt, lt_def, toNat_udiv, toNat_allOnes, hpitch', hheight',
      Nat.not_lt, Nat.le_div_iff_mul_le hpos]
    omega
  rw [if_neg hfits, toNat_mul, hpitch', hheight']
  apply Nat.mod_eq_of_lt
  omega

theorem Unallocated.reserves_framebuffer (hs : Unallocated s) (haveFramebuffer : Bool)
    (framebuffer : FramebufferInfo) :
    Reserves s (reserveFramebufferMmio s haveFramebuffer (some framebuffer)) fun page =>
      haveFramebuffer = true ∧ Touches page framebuffer.address.toNat
        (framebuffer.pitch.toNat * framebuffer.height.toNat) := by
  have hsize := toNat_framebufferSizeBytes framebuffer
  simp only [reserveFramebufferMmio]
  by_cases hhave : haveFramebuffer = false
  · rw [if_pos hhave]
    apply hs.reserves_nothing
    rintro p - ⟨htrue, -⟩
    rw [hhave] at htrue
    exact absurd htrue (by decide)
  rw [if_neg hhave]
  by_cases hzero : framebufferSizeBytes (some framebuffer) = 0#64
  · rw [if_pos hzero]
    apply hs.reserves_nothing
    rintro p - ⟨-, htouch⟩
    rw [← hsize, hzero, touches_iff] at htouch
    exact absurd htouch.1 (by decide)
  · rw [if_neg hzero]
    apply (hs.reserves_range _ _).mono
    rintro p - ⟨-, htouch⟩
    rw [hsize]
    exact htouch

theorem toNat_clampEnd (base size : BitVec 64) :
    (clampEnd base size).toNat = min (base.toNat + size.toNat) (2 ^ 64 - 1) := by
  have hbase := base.isLt
  have hsize := size.isLt
  have hsub : (allOnes 64 - size).toNat = 2 ^ 64 - 1 - size.toNat := by
    rw [toNat_sub_of_le (by rw [le_def, toNat_allOnes]; omega),
      toNat_allOnes]
  rw [clampEnd]
  by_cases hgt : base > allOnes 64 - size
  · rw [if_pos hgt, toNat_allOnes]
    rw [gt_iff_lt, lt_def, hsub] at hgt
    omega
  · rw [if_neg hgt, toNat_add]
    rw [gt_iff_lt, lt_def, hsub] at hgt
    omega

/-- The low memory that the allocator manages. -/
theorem Unallocated.reserves_dma (hs : Unallocated s) {base size : BitVec 64}
    (hround : base.toNat + 4095 < 2 ^ 64) (hbase : s.base = pageAlignUp base)
    (htotal : s.totalPages = initTotalPages base size) :
    Reserves s (reserveDmaLowWindow s base size) fun page => page.toNat < 16 * 1024 * 1024 := by
  have hregion : ∀ p, p < s.totalPages → base.toNat ≤ (pageAddr s p).toNat ∧
      (pageAddr s p).toNat + 4096 ≤ base.toNat + size.toNat := by
    intro p hp
    rw [pageAddr_toNat hs.good.window hp, hbase]
    rw [htotal] at hp
    exact page_in_region hround hp
  have hwindow : dmaLegacyWindowEnd.toNat = 16 * 1024 * 1024 := by decide
  rw [reserveDmaLowWindow]
  by_cases hskip : size = 0#64 ∨ base ≥ dmaLegacyWindowEnd
  · rw [if_pos hskip]
    apply hs.reserves_nothing
    intro p hp hlow
    have hp := hregion p hp
    rcases hskip with rfl | hge
    · have hzero : (0#64).toNat = 0 := rfl
      omega
    · rw [ge_iff_le, le_def] at hge
      omega
  rw [if_neg hskip]
  rw [not_or, ge_iff_le, BitVec.not_le, lt_def] at hskip
  have hclip := toNat_clipAbove (clampEnd base size) dmaLegacyWindowEnd
  rw [toNat_clampEnd] at hclip
  simp only
  generalize (if clampEnd base size > dmaLegacyWindowEnd then dmaLegacyWindowEnd
    else clampEnd base size) = pmmEnd at hclip ⊢
  by_cases hempty : pmmEnd ≤ base
  · rw [if_pos hempty]
    rw [le_def] at hempty
    apply hs.reserves_nothing
    intro p hp hlow
    have hp := hregion p hp
    omega
  · rw [if_neg hempty]
    rw [BitVec.not_le, lt_def] at hempty
    apply (hs.reserves_range _ _).mono
    intro p hp hlow
    have hp := hregion p hp
    rw [touches_iff, toNat_sub_of_le (by rw [le_def]; omega)]
    omega

end

/-! ## The whole sequence -/

theorem unallocated_pmmInit (base size : BitVec 64) : Unallocated (pmmInit base size) := by
  obtain ⟨_, hbase, htotal, hstatus⟩ := pmmInit_spec base size
  refine ⟨good_pmmInit base size, ?_, ?_⟩
  · rw [hbase, toNat_pageAlignUp, Nat.mul_mod_left]
  · intro p hp
    rw [htotal] at hp
    rw [hstatus p hp]
    split <;> decide

/-- All live pages that the allocator manages are reserved. -/
theorem kmainReservations_reserves (m : BootMemory) (hround : m.pmmBase.toNat + 4095 < 2 ^ 64)
    (hnull : m.bootInfo.addr ≠ 0#64) (hheader : 8 ≤ m.bootInfo.totalSize) :
    Reserves (pmmInit m.pmmBase m.pmmSize) (kmainReservations m) m.Live := by
  obtain ⟨_, hbase, htotal, _⟩ := pmmInit_spec m.pmmBase m.pmmSize
  have hinit := unallocated_pmmInit m.pmmBase m.pmmSize
  have hkernel := hinit.reserves_kernel m.kernelStart m.kernelEnd
  have hdma := hkernel.unallocated.reserves_dma hround (hkernel.base.trans hbase)
    (hkernel.total.trans htotal)
  have hinfo := hdma.unallocated.reserves_info hnull hheader
  have hframebuffer := hinfo.unallocated.reserves_framebuffer m.haveFramebuffer m.framebufferInfo
  apply (((hkernel.trans hdma).trans hinfo).trans hframebuffer).mono
  intro p hp hlive
  rcases hlive with h | h | h | h
  · exact .inl (.inl (.inl h))
  · exact .inl (.inr h)
  · exact .inr h
  · exact .inl (.inl (.inr h))

/-- Whatever calls follow, the next page that is handed out is a managed one without `R`. -/
theorem Reserves.handed_out {s t : PmmState} {R : BitVec 64 → Prop} (h : Reserves s t R)
    {ops : List PmmOp} {page : BitVec 64} (halloc : (pmmAllocPage (runOps t ops)).1 = page)
    (hne : page ≠ 0#64) : ∃ x < s.totalPages, pageAddr s x = page ∧ ¬ R page := by
  have hG := h.unallocated.good
  obtain ⟨hG', hbase, htotal⟩ := good_runOps hG ops
  rcases pmmAllocPage_spec hG'.inv with ⟨hrun, _⟩ | ⟨x, s', hrun, hx, hfree, _⟩
  · rw [hrun] at halloc
    exact absurd halloc.symm hne
  · rw [hrun] at halloc
    have haddr : pageAddr s x = page := by
      rw [← halloc, pageAddr, pageAddr, hbase, h.base]
    rw [htotal] at hx
    have hx' : x < s.totalPages := by rwa [← h.total]
    refine ⟨x, hx', haddr, fun hR => ?_⟩
    -- the page was reserved at boot and still is
    have hboot : x ∈ (sets t).reserved :=
      mem_pagesWith.mpr ⟨hx, h.reserved x hx' (.inr (haddr ▸ hR))⟩
    have hlater := (mem_pagesWith.mp (reserved_runOps hG ops hboot)).2
    rw [hfree] at hlater
    exact absurd hlater (by decide)

/-- Reserved pages are never handed out. -/
theorem Reserves.protected {m : BootMemory} {s : PmmState}
    (h : Reserves s (kmainReservations m) m.Live) : m.Protected := by
  intro ops page halloc hne
  obtain ⟨_, _, _, hnot⟩ := h.handed_out halloc hne
  exact hnot

/-- After the reservations, only pages of the region that are not in use are handed out. -/
theorem BootMemory.handed_out {m : BootMemory} (hround : m.pmmBase.toNat + 4095 < 2 ^ 64)
    (hnull : m.bootInfo.addr ≠ 0#64) (hheader : 8 ≤ m.bootInfo.totalSize) {ops : List PmmOp}
    {page : BitVec 64} (halloc : (pmmAllocPage (runOps (kmainReservations m) ops)).1 = page)
    (hne : page ≠ 0#64) :
    ¬ m.Live page ∧ m.pmmBase.toNat ≤ page.toNat ∧
      page.toNat + 4096 ≤ m.pmmBase.toNat + m.pmmSize.toNat := by
  obtain ⟨_, hbase, htotal, _⟩ := pmmInit_spec m.pmmBase m.pmmSize
  obtain ⟨x, hx, rfl, hnot⟩ :=
    (kmainReservations_reserves m hround hnull hheader).handed_out halloc hne
  have hregion := page_in_region hround (htotal ▸ hx)
  rw [← hbase, ← pageAddr_toNat (unallocated_pmmInit _ _).good.window hx] at hregion
  exact ⟨hnot, hregion⟩

/-! ## A base in the last page -/

/-- A boot information of 8 bytes at 256 MiB. -/
def farInfo : BootInfo := ⟨Memory.ofWords 0x10000000#64 [8#64], 0x10000000#64⟩

/-- Nothing is in use but that. -/
def bareMemory (base size : BitVec 64) : BootMemory where
  pmmBase := base
  pmmSize := size
  kernelStart := 0#64
  kernelEnd := 0#64
  bootInfo := farInfo
  haveFramebuffer := false
  framebufferInfo := noFramebuffer

section
variable {base size : BitVec 64}

/-- The low window is not reserved, because the base is not low. -/
theorem kmainReservations_bare (hlast : 2 ^ 64 ≤ base.toNat + 4095) :
    kmainReservations (bareMemory base size) =
      pmmReserveRange (pmmInit base size) 0x10000000#64 8#64 := by
  have hkernel : pmmReserveRange (pmmInit base size) 0#64 (0#64 - 0#64) = pmmInit base size := by
    rw [pmmReserveRange, reserveBounds, if_pos (.inl (by decide))]
  have hdma : reserveDmaLowWindow (pmmInit base size) base size = pmmInit base size := by
    have hwindow : dmaLegacyWindowEnd.toNat = 16777216 := by decide
    rw [reserveDmaLowWindow, if_pos]
    right
    rw [ge_iff_le, le_def, hwindow]
    omega
  have hsize : farInfo.totalSize = 8 := by decide +kernel
  have hinfo : reserveMultibootInfo (pmmInit base size) farInfo =
      pmmReserveRange (pmmInit base size) 0x10000000#64 8#64 := by
    rw [reserveMultibootInfo, hsize, if_neg (by decide), if_neg (by decide)]
    rfl
  simp only [kmainReservations, bareMemory]
  rw [hkernel, hdma, hinfo, reserveFramebufferMmio, if_pos rfl]

/-- A run in which the page at 4 KiB is handed out. -/
theorem low_page_handed_out (hwrap : base.toNat + size.toNat < 2 ^ 64)
    (hlast : 2 ^ 64 ≤ base.toNat + 4095) :
    (pmmAllocPage (runOps (kmainReservations (bareMemory base size))
      [.reserveRange 0x2000#64 0xFFFE000#64])).1 = 0x1000#64 := by
  obtain ⟨hup, hpages⟩ := window_of_last_page hwrap hlast
  obtain ⟨_, hbase, htotal, hinit⟩ := pmmInit_spec base size
  have hs := unallocated_pmmInit base size
  have hfar := hs.reserves_range 0x10000000#64 8#64
  have hrest := hfar.unallocated.reserves_range 0x2000#64 0xFFFE000#64
  have hbase' := hfar.base.trans (hbase.trans hup)
  have htotal' := hfar.total.trans (htotal.trans hpages)
  rw [kmainReservations_bare hlast]
  show (pmmAllocPage (pmmReserveRange (pmmReserveRange (pmmInit base size) _ _) _ _)).1 = _
  -- the only free page is page 1
  have hone : ∀ x, x < 65536 → (pageStatus (pmmReserveRange (pmmReserveRange (pmmInit base size)
      0x10000000#64 8#64) 0x2000#64 0xFFFE000#64) x = .free ↔ x = 1) := by
    intro x hx
    have haddr : (pageAddr (pmmInit base size) x).toNat = x * 4096 := by
      rw [pageAddr_toNat hs.good.window (by rw [htotal, hpages]; exact hx), hbase, hup]
      simp
    have haddr' : (pageAddr (pmmReserveRange (pmmInit base size) 0x10000000#64 8#64) x).toNat =
        x * 4096 := by
      rw [pageAddr, hfar.base]
      exact haddr
    have hnot : ¬ Touches (pageAddr (pmmInit base size) x) (0x10000000#64).toNat (8#64).toNat := by
      rw [touches_iff, haddr]
      simp only [toNat_ofNat]
      omega
    have htouch : Touches (pageAddr (pmmReserveRange (pmmInit base size) 0x10000000#64 8#64) x)
        (0x2000#64).toNat (0xFFFE000#64).toNat ↔ 1 < x := by
      rw [touches_iff, haddr']
      simp only [toNat_ofNat]
      omega
    have hbefore : pageStatus (pmmReserveRange (pmmInit base size) 0x10000000#64 8#64) x =
        if x = 0 then .reserved else .free := by
      rw [pmmReserveRange_status hs.good hs.aligned _ _ (by rw [htotal, hpages]; exact hx),
        if_neg fun h => hnot h.1, hinit x (by rw [hpages]; exact hx)]
    rw [pmmReserveRange_status hfar.unallocated.good hfar.unallocated.aligned _ _
        (by rw [htotal']; exact hx), hbefore]
    simp only [htouch]
    obtain rfl | rfl | hgt : x = 0 ∨ x = 1 ∨ 1 < x := by omega
    · decide
    · decide
    · rw [if_neg (by omega : ¬ x = 0), if_pos ⟨hgt, rfl⟩]
      simp only [reduceCtorEq, false_iff]
      omega
  obtain ⟨hrun, hnone⟩ | ⟨x, s', hrun, hx, hfree, _⟩ := pmmAllocPage_spec hrest.unallocated.good.inv
  · rw [hrest.total, htotal'] at hnone
    exact absurd ((hone 1 (by decide)).mpr rfl) (hnone 1 (by decide))
  · rw [hrest.total, htotal'] at hx
    have hx1 := (hone x hx).mp hfree
    subst hx1
    rw [hrun]
    show pageAddr _ 1 = _
    rw [pageAddr, hrest.base, hbase']
    rfl

end

/-- **Boot reservations.**  For every region without wrap-around: whatever the kernel image, the
boot information with its header, and the framebuffer, no run of the allocator after `kmain`'s
reservations hands out a page of theirs or below 16 MiB, exactly if rounding the base of the region
up to a page does not wrap. -/
theorem boot_reservations_protect_iff (pmmBase pmmSize : BitVec 64)
    (hwrap : pmmBase.toNat + pmmSize.toNat < 2 ^ 64) :
    (∀ (kernelStart kernelEnd : BitVec 64) (bootInfo : BootInfo) (haveFramebuffer : Bool)
      (framebufferInfo : FramebufferInfo), bootInfo.addr ≠ 0#64 → 8 ≤ bootInfo.totalSize →
      BootMemory.Protected
        ⟨pmmBase, pmmSize, kernelStart, kernelEnd, bootInfo, haveFramebuffer, framebufferInfo⟩) ↔
    pmmBase.toNat + 4095 < 2 ^ 64 := by
  constructor
  · intro hall
    rw [← Nat.not_le]
    intro hlast
    have hprotected : (bareMemory pmmBase pmmSize).Protected :=
      hall 0#64 0#64 farInfo false noFramebuffer (by decide) (by decide +kernel)
    refine hprotected _ 0x1000#64 (low_page_handed_out hwrap hlast) (by decide) ?_
    exact .inr (.inr (.inr (by decide)))
  · intro hround kernelStart kernelEnd bootInfo haveFramebuffer framebufferInfo hnull hheader
    exact (kmainReservations_reserves _ hround hnull hheader).protected

/-- A region of four pages: the first is below 16 MiB, the next two hold the kernel image and the
boot information. -/
def crowdedMemory : BootMemory where
  pmmBase := 0xFFF000#64
  pmmSize := 0x4000#64
  kernelStart := 0x1000000#64
  kernelEnd := 0x1000800#64
  bootInfo := ⟨Memory.ofWords 0x1001FF8#64 [8#64], 0x1001FF8#64⟩
  haveFramebuffer := false
  framebufferInfo := noFramebuffer

theorem boot_reservations_protect_iff_crowded :
    crowdedMemory.Protected ∧ (pmmAllocPage (kmainReservations crowdedMemory)).1 = 0x1002000#64 :=
  ⟨(boot_reservations_protect_iff 0xFFF000#64 0x4000#64 (by decide)).mpr (by decide)
    0x1000000#64 0x1000800#64 ⟨Memory.ofWords 0x1001FF8#64 [8#64], 0x1001FF8#64⟩ false
    noFramebuffer (by decide) (by decide +kernel), by decide +kernel⟩

/-- A block shorter than its header, and one at the address 0. -/
def shortInfo : BootInfo := ⟨Memory.ofWords 0x2001000#64 [4#64], 0x2001000#64⟩
def nullInfo : BootInfo := ⟨Memory.ofWords 0#64 [0x2002000#64], 0#64⟩

/-- A base in the last page gives away low memory, and the two kinds of block that
`reserve_multiboot_info` passes over are given away. -/
theorem boot_reservations_leak :
    (∃ ops, (pmmAllocPage (runOps (kmainReservations
        (bareMemory 0xFFFFFFFFFFFFF001#64 0xFFE#64)) ops)).1 = 0x1000#64 ∧
      (bareMemory 0xFFFFFFFFFFFFF001#64 0xFFE#64).Live 0x1000#64) ∧
    ∀ bootInfo ∈ [shortInfo, nullInfo],
      (pmmAllocPage (kmainReservations ⟨0x2000000#64, 0x4000#64, 0x100000#64, 0x200000#64,
        bootInfo, false, noFramebuffer⟩)).1 = 0x2001000#64 ∧
      Touches 0x2001000#64 bootInfo.addr.toNat bootInfo.totalSize := by
  constructor
  · refine ⟨_, low_page_handed_out (by decide) (by decide), ?_⟩
    exact .inr (.inr (.inr (by decide)))
  · intro bootInfo hinfo
    simp only [List.mem_cons, List.not_mem_nil, or_false] at hinfo
    rcases hinfo with rfl | rfl
    · decide +kernel
    · decide +kernel

end GnuOS.Boot
