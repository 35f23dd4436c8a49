import GnuOS.Boot.Multiboot2
import GnuOS.Lib.Bits

/-!
# When the walks over the tags are safe

The size of a tag is rounded up to a multiple of 8 in 32 bits, and addresses are added in 64 bits.
Where none of these sums overflows on the tags that are visited, the three functions return and
read the block only; where one does, one of them reads beyond the block or never returns.
-/

namespace GnuOS.Boot

open GnuOS.Lib BitVec

namespace BootInfo

variable {b : BootInfo} {o : ℕ} {goesOn : ℕ → Prop}

/-! ## The tags of a block -/

def addrAt (b : BootInfo) (o : ℕ) : BitVec 64 := b.addr + BitVec.ofNat 64 o

def word8 (b : BootInfo) (o : ℕ) : ℕ := b.memory.load (b.addrAt o) 1
def word32 (b : BootInfo) (o : ℕ) : ℕ := b.memory.load (b.addrAt o) 4
def word64 (b : BootInfo) (o : ℕ) : ℕ := b.memory.load (b.addrAt o) 8

def tagType (b : BootInfo) (o : ℕ) : ℕ := b.word32 o
def tagSize (b : BootInfo) (o : ℕ) : ℕ := b.word32 (o + 4)

/-- The field `entry_size` of a memory map. -/
def entrySize (b : BootInfo) (o : ℕ) : ℕ := b.word32 (o + 8)

/-- The size of a tag with its padding. -/
def paddedSize (b : BootInfo) (o : ℕ) : ℕ := (b.tagSize o + 7) / 8 * 8

/-- What the loop adds to the address of a tag. -/
def advance (b : BootInfo) (o : ℕ) : ℕ := (b.tagSize o + 7) % 2 ^ 32 / 8 * 8

/-- The block lies inside the address space. -/
def InSpace (b : BootInfo) : Prop := b.addr.toNat + b.totalSize ≤ 2 ^ 64

/-- A tag that is inside the block with its padding, and not the last one. -/
structure Passed (b : BootInfo) (o : ℕ) : Prop where
  header : o + 8 ≤ b.totalSize
  size_ge : 8 ≤ b.tagSize o
  size_le : b.tagSize o ≤ 2 ^ 32 - 8
  fits : o + b.paddedSize o ≤ b.totalSize
  notEnd : b.tagType o ≠ 0

/-- The positions in the block where a walk looks for a tag that goes on after the tags with
`goesOn`.  If the block ends at the end of the address space, its end address is 0 and there are
none. -/
inductive TagAt (b : BootInfo) (goesOn : ℕ → Prop) : ℕ → Prop
  | first : 8 ≤ b.totalSize → b.addr.toNat + b.totalSize < 2 ^ 64 → TagAt b goesOn 8
  | next (o : ℕ) : TagAt b goesOn o → b.Passed o → goesOn o →
      TagAt b goesOn (o + b.paddedSize o)

theorem TagAt.le (h : b.TagAt goesOn o) : 8 ≤ o ∧ o ≤ b.totalSize := by
  induction h with
  | first hsize _ => exact ⟨le_refl 8, hsize⟩
  | next o _ hpassed _ ih => exact ⟨by omega, hpassed.fits⟩

theorem TagAt.end_lt (h : b.TagAt goesOn o) : b.addr.toNat + b.totalSize < 2 ^ 64 := by
  induction h with
  | first _ hbelow => exact hbelow
  | next o _ _ _ ih => exact ih

/-- A walk over all tags comes to the tags of every walk. -/
theorem TagAt.all (h : b.TagAt goesOn o) : b.TagAt (fun _ => True) o := by
  induction h with
  | first hsize hbelow => exact .first hsize hbelow
  | next o _ hpassed _ ih => exact .next o ih hpassed trivial

/-! ## Reads inside the block -/

theorem totalSize_lt (b : BootInfo) : b.totalSize < 2 ^ 32 := Memory.load_lt b.memory b.addr 4

theorem word32_lt (b : BootInfo) (o : ℕ) : b.word32 o < 2 ^ 32 := Memory.load_lt b.memory _ 4

theorem tagSize_lt (b : BootInfo) (o : ℕ) : b.tagSize o < 2 ^ 32 := b.word32_lt (o + 4)

theorem tagType_lt (b : BootInfo) (o : ℕ) : b.tagType o < 2 ^ 32 := b.word32_lt o

theorem addrAt_add (b : BootInfo) (o k : ℕ) :
    b.addrAt o + BitVec.ofNat 64 k = b.addrAt (o + k) := Memory.addr_add b.addr o k

theorem addrAt_zero (b : BootInfo) : b.addrAt 0 = b.addr := BitVec.add_zero b.addr

theorem toNat_addrAt (h : b.addr.toNat + o < 2 ^ 64) :
    (b.addrAt o).toNat = b.addr.toNat + o := Memory.toNat_addr h

theorem toNat_addrAt_mod (b : BootInfo) (o : ℕ) :
    (b.addrAt o).toNat = (b.addr.toNat + o) % 2 ^ 64 := by
  rw [addrAt, toNat_add, toNat_ofNat, Nat.add_mod_mod]

theorem addrAt_lt_iff {o' : ℕ} (h : b.addr.toNat + o < 2 ^ 64) (h' : b.addr.toNat + o' < 2 ^ 64) :
    b.addrAt o < b.addrAt o' ↔ o < o' := by
  rw [lt_def, toNat_addrAt h, toNat_addrAt h', Nat.add_lt_add_iff_left]

theorem addrAt_le_iff {o' : ℕ} (h : b.addr.toNat + o < 2 ^ 64) (h' : b.addr.toNat + o' < 2 ^ 64) :
    b.addrAt o ≤ b.addrAt o' ↔ o ≤ o' := by
  rw [le_def, toNat_addrAt h, toNat_addrAt h', Nat.add_le_add_iff_left]

theorem read_inside (hb : b.InSpace) {n : ℕ} (hn : 0 < n) (ho : o + n ≤ b.totalSize) :
    b.read (b.addrAt o) n = .value (b.memory.load (b.addrAt o) n) :=
  Region.read_of_inside hb hn ho

theorem read8_inside (hb : b.InSpace) (ho : o + 1 ≤ b.totalSize) :
    b.read8 (b.addrAt o) = .value (BitVec.ofNat 8 (b.word8 o)) := by
  rw [read8, read_inside hb (by omega) ho]
  rfl

theorem read32_inside (hb : b.InSpace) (ho : o + 4 ≤ b.totalSize) :
    b.read32 (b.addrAt o) = .value (BitVec.ofNat 32 (b.word32 o)) := by
  rw [read32, read_inside hb (by omega) ho]
  rfl

theorem read64_inside (hb : b.InSpace) (ho : o + 8 ≤ b.totalSize) :
    b.read64 (b.addrAt o) = .value (BitVec.ofNat 64 (b.word64 o)) := by
  rw [read64, read_inside hb (by omega) ho]
  rfl

/-- Outside of the block nothing is read. -/
theorem read32_outside {a : BitVec 64}
    (h : ¬(b.addr.toNat ≤ a.toNat ∧ a.toNat + 4 ≤ b.addr.toNat + b.totalSize)) :
    b.read32 a = .outside := by
  rw [read32, read, Region.read_of_outside h]
  rfl

end BootInfo

/-! ## One round of the loop -/

theorem toNat_align8 (v : BitVec 32) : (align8 v).toNat = (v.toNat + 7) % 2 ^ 32 / 8 * 8 :=
  toNat_round_up v (n := 3) (by decide)

namespace BootInfo

variable {b : BootInfo} {o : ℕ}

theorem advance_of_le (h : b.tagSize o ≤ 2 ^ 32 - 8) : b.advance o = b.paddedSize o := by
  unfold advance paddedSize
  rw [Nat.mod_eq_of_lt (by omega)]

/-- The rounding overflows. -/
theorem advance_of_gt (h : 2 ^ 32 - 8 < b.tagSize o) : b.advance o = 0 := by
  have hlt := b.tagSize_lt o
  unfold advance
  omega

theorem next_eq (b : BootInfo) (o : ℕ) :
    b.addrAt o + (align8 (BitVec.ofNat 32 (b.tagSize o))).setWidth 64 =
      b.addrAt (o + b.advance o) := by
  have halign : (align8 (BitVec.ofNat 32 (b.tagSize o))).setWidth 64 =
      BitVec.ofNat 64 (b.advance o) := by
    rw [← toNat_inj, toNat_setWidth, toNat_align8, toNat_ofNat,
      toNat_ofNat, Nat.mod_eq_of_lt (b.tagSize_lt o)]
    rfl
  rw [halign, addrAt_add]

theorem tagSize_le_paddedSize (b : BootInfo) (o : ℕ) : b.tagSize o ≤ b.paddedSize o := by
  unfold paddedSize
  omega

end BootInfo

/-- What a loop does with a tag, given its address, type and size. -/
abbrev TagBody (σ ρ : Type) := BitVec 64 → BitVec 32 → BitVec 32 → σ → Outcome (Flow σ ρ)

section

variable {σ ρ : Type}

/-- What it does with the tag at offset `o`. -/
def BootInfo.onTag (b : BootInfo) (body : TagBody σ ρ) (o : ℕ) (s : σ) : Outcome (Flow σ ρ) :=
  body (b.addrAt o) (BitVec.ofNat 32 (b.tagType o)) (BitVec.ofNat 32 (b.tagSize o)) s

/-- The loop over the tags from offset `o` on. -/
def BootInfo.walkFrom (b : BootInfo) (body : TagBody σ ρ) (finish reject : σ → ρ) (fuel o : ℕ)
    (s : σ) : Outcome ρ :=
  walkTags b body finish reject (b.addrAt b.totalSize) fuel (b.addrAt o) s

variable {b : BootInfo} {o fuel : ℕ} {s : σ} {r : ρ} {finish reject : σ → ρ} {body : TagBody σ ρ}

/-- A round in which the loop goes on, at a tag whose header is inside the block. -/
theorem walkFrom_round (hb : b.InSpace) (ho : o + 8 ≤ b.totalSize)
    (htest : b.addrAt (o + 8) ≤ b.addrAt b.totalSize) :
    b.walkFrom body finish reject (fuel + 1) o s =
      if b.tagSize o < 8 then .value (reject s)
      else if b.addrAt b.totalSize < b.addrAt (o + b.advance o) then .value (reject s)
      else if b.tagType o = 0 then .value (finish s)
      else b.onTag body o s >>=
        Flow.proceed fun s => b.walkFrom body finish reject fuel (o + b.advance o) s := by
  have hsize : BitVec.ofNat 32 (b.tagSize o) < 8#32 ↔ b.tagSize o < 8 :=
    ofNat_lt_iff (b.tagSize_lt o) (by decide)
  have htype : BitVec.ofNat 32 (b.tagType o) = multibootTagTypeEnd ↔ b.tagType o = 0 :=
    ofNat_eq_iff (b.tagType_lt o) (by decide)
  have hreadSize : b.read32 (b.addrAt (o + 4)) = .value (BitVec.ofNat 32 (b.tagSize o)) :=
    BootInfo.read32_inside hb (by omega)
  have hreadType : b.read32 (b.addrAt o) = .value (BitVec.ofNat 32 (b.tagType o)) :=
    BootInfo.read32_inside hb (by omega)
  unfold BootInfo.walkFrom
  rw [walkTags, b.addrAt_add, b.addrAt_add, if_pos htest, hreadSize, hreadType]
  simp only [Outcome.value_bind, hsize, htype, b.next_eq o]
  rfl

/-- The end of the loop. -/
theorem walkFrom_done (htest : ¬b.addrAt (o + 8) ≤ b.addrAt b.totalSize) :
    b.walkFrom body finish reject (fuel + 1) o s = .value (finish s) := by
  unfold BootInfo.walkFrom
  rw [walkTags, b.addrAt_add, if_neg htest]

/-- The test of the loop at a tag whose header is inside the block. -/
theorem addrAt_header_le (hb : b.addr.toNat + b.totalSize < 2 ^ 64) (ho : o + 8 ≤ b.totalSize) :
    b.addrAt (o + 8) ≤ b.addrAt b.totalSize :=
  (BootInfo.addrAt_le_iff (by omega) hb).mpr ho

theorem walkFrom_stop (hb : b.addr.toNat + o + 8 < 2 ^ 64)
    (hend : b.addr.toNat + b.totalSize < 2 ^ 64) (ho : b.totalSize < o + 8) :
    b.walkFrom body finish reject (fuel + 1) o s = .value (finish s) :=
  walkFrom_done fun hle => absurd ((BootInfo.addrAt_le_iff (by omega) hend).mp hle) (by omega)

/-- A tag that fits into the block, with the padding behind it. -/
theorem walkFrom_fits (hb : b.addr.toNat + b.totalSize < 2 ^ 64) (hge : 8 ≤ b.tagSize o)
    (hle : b.tagSize o ≤ 2 ^ 32 - 8) (hfits : o + b.paddedSize o ≤ b.totalSize) :
    b.walkFrom body finish reject (fuel + 1) o s =
      if b.tagType o = 0 then .value (finish s)
      else b.onTag body o s >>=
        Flow.proceed fun s => b.walkFrom body finish reject fuel (o + b.paddedSize o) s := by
  have hpadded := b.tagSize_le_paddedSize o
  have hheader : o + 8 ≤ b.totalSize := by omega
  have hnext : ¬b.addrAt b.totalSize < b.addrAt (o + b.paddedSize o) := by
    rw [BootInfo.addrAt_lt_iff hb (by omega)]
    omega
  rw [walkFrom_round hb.le hheader (addrAt_header_le hb hheader), BootInfo.advance_of_le hle,
    if_neg (by omega), if_neg hnext]

theorem walkFrom_passed (hb : b.addr.toNat + b.totalSize < 2 ^ 64) (ho : b.Passed o) :
    b.walkFrom body finish reject (fuel + 1) o s =
      b.onTag body o s >>=
        Flow.proceed fun s => b.walkFrom body finish reject fuel (o + b.paddedSize o) s := by
  rw [walkFrom_fits hb ho.size_ge ho.size_le ho.fits, if_neg ho.notEnd]

/-- A walk that returns has done so at every tag that it passed. -/
theorem walkFrom_passed_value (hb : b.addr.toNat + b.totalSize < 2 ^ 64) (ho : b.Passed o)
    (h : b.walkFrom body finish reject fuel o s = .value r) :
    ∃ fuel' flow, b.onTag body o s = .value flow ∧ Flow.proceed (fun s =>
      b.walkFrom body finish reject fuel' (o + b.paddedSize o) s) flow = .value r := by
  cases fuel with
  | zero => cases h
  | succ fuel =>
    rw [walkFrom_passed hb ho, Outcome.bind_eq_value] at h
    exact ⟨fuel, h⟩

theorem walkFrom_zero : b.walkFrom body finish reject 0 o s ≠ .value r := nofun

end

/-! ## Blocks that can be walked over -/

/-- No sum on the way over the tags of the block overflows. -/
structure Steady (b : BootInfo) : Prop where
  rounding : ∀ o, b.TagAt (fun _ => True) o → o + 8 ≤ b.totalSize → b.tagType o ≠ 0 →
    b.tagSize o ≤ 2 ^ 32 - 8
  loopTest : ∀ o, b.TagAt (fun _ => True) o → b.totalSize < o + 8 →
    b.addr.toNat + o + 8 < 2 ^ 64
  nextTag : ∀ o, b.TagAt (fun _ => True) o → o + 8 ≤ b.totalSize → 8 ≤ b.tagSize o →
    b.tagType o ≠ 0 → b.addr.toNat + o + b.paddedSize o < 2 ^ 64

section

variable {σ ρ : Type} {b : BootInfo} {o n fuel : ℕ} {s : σ} {r : ρ} {finish reject : σ → ρ}
variable {goesOn : ℕ → Prop}

/-- With enough rounds for its own loop, the body of a walk returns at the tag; if it goes on to the
next tag, then `goesOn`. -/
def Responds (b : BootInfo) (body : ℕ → TagBody σ ρ) (goesOn : ℕ → Prop) (o : ℕ) (s : σ) : Prop :=
  ∃ flow, (∀ g, b.totalSize ≤ g → b.onTag (body g) o s = .value flow) ∧
    ∀ s', flow = .next s' → goesOn o

/-- With more than `n` rounds the walk returns, and the result does not depend on their number. -/
def Settles (b : BootInfo) (body : ℕ → TagBody σ ρ) (finish reject : σ → ρ) (n o : ℕ) (s : σ) :
    Prop :=
  ∃ r, ∀ g f, b.totalSize ≤ g → n < f → b.walkFrom (body g) finish reject f o s = .value r

theorem Settles.of_succ {body : ℕ → TagBody σ ρ} (r : ρ) (h : ∀ g f, b.totalSize ≤ g → n ≤ f →
      b.walkFrom (body g) finish reject (f + 1) o s = .value r) :
    Settles b body finish reject n o s := by
  refine ⟨r, fun g f hg hf => ?_⟩
  rw [← Nat.sub_add_cancel (Nat.one_le_of_lt hf)]
  exact h g (f - 1) hg (by omega)

/-- A walk over such a block returns if what it does with the tags does. -/
theorem Steady.settles (hb : Steady b) {body : ℕ → TagBody σ ρ}
    (hbody : ∀ o s, b.TagAt goesOn o → b.Passed o → Responds b body goesOn o s)
    (hn : b.totalSize - o ≤ n) (ho : b.TagAt goesOn o) : Settles b body finish reject n o s := by
  have hend := ho.end_lt
  have hstop : ∀ {o s n}, b.TagAt goesOn o → b.totalSize < o + 8 →
      Settles b body finish reject n o s := fun ho hlast =>
    .of_succ _ fun _ _ _ _ => walkFrom_stop (hb.loopTest _ ho.all hlast) hend hlast
  -- induction on the distance to the end of the block
  induction n generalizing o s with
  | zero => exact hstop ho (by omega)
  | succ n ih =>
    by_cases hheader : o + 8 ≤ b.totalSize
    swap
    · exact hstop ho (by omega)
    have htest := addrAt_header_le hend hheader
    by_cases hsize : b.tagSize o < 8
    · refine .of_succ (reject s) fun g f _ _ => ?_
      rw [walkFrom_round hend.le hheader htest, if_pos hsize]
    by_cases hfar : b.addrAt b.totalSize < b.addrAt (o + b.advance o)
    · refine .of_succ (reject s) fun g f _ _ => ?_
      rw [walkFrom_round hend.le hheader htest, if_neg hsize, if_pos hfar]
    by_cases htype : b.tagType o = 0
    · refine .of_succ (finish s) fun g f _ _ => ?_
      rw [walkFrom_round hend.le hheader htest, if_neg hsize, if_neg hfar, if_pos htype]
    -- the tag is passed, since the address of the next one is what it should be
    have hpassed : b.Passed o := by
      have hle := hb.rounding o ho.all hheader htype
      have hnext := hb.nextTag o ho.all hheader (by omega) htype
      rw [BootInfo.advance_of_le hle, BootInfo.addrAt_lt_iff hend (by omega)] at hfar
      exact ⟨hheader, by omega, hle, by omega, htype⟩
    obtain ⟨flow, hflow, hgoes⟩ := hbody o s ho hpassed
    cases flow with
    | ret r =>
      refine .of_succ r fun g f hg _ => ?_
      rw [walkFrom_passed hend hpassed, hflow g hg]
      rfl
    | next s' =>
      have hpadded := b.tagSize_le_paddedSize o
      obtain ⟨r, hr⟩ := ih (s := s') (by omega) (.next o ho hpassed (hgoes s' rfl))
      refine .of_succ r fun g f hg hf => ?_
      rw [walkFrom_passed hend hpassed, hflow g hg]
      exact hr g f hg hf

/-- A walk that returns comes to every tag, unless the body returns before. -/
theorem walkFrom_reaches {body : TagBody σ ρ} (ho : b.TagAt goesOn o)
    (hbody : ∀ o s flow, b.Passed o → goesOn o → b.onTag body o s = .value flow →
      ∃ s', flow = .next s')
    (h : b.walkFrom body finish reject fuel 8 s = .value r) :
    ∃ fuel' s', b.walkFrom body finish reject fuel' o s' = .value r := by
  induction ho with
  | first _ _ => exact ⟨fuel, s, h⟩
  | next o ho hpassed hgoes ih =>
    obtain ⟨fuel', s', hwalk⟩ := ih
    obtain ⟨fuel'', flow, hflow, hrest⟩ := walkFrom_passed_value ho.end_lt hpassed hwalk
    obtain ⟨s'', rfl⟩ := hbody o s' flow hpassed hgoes hflow
    exact ⟨fuel'', s'', hrest⟩

/-- Such a walk returns from the body at every tag that it passes. -/
theorem onTag_of_walkFrom {body : TagBody σ ρ} (ho : b.TagAt goesOn o) (hpassed : b.Passed o)
    (hbody : ∀ o s flow, b.Passed o → goesOn o → b.onTag body o s = .value flow →
      ∃ s', flow = .next s')
    (h : b.walkFrom body finish reject fuel 8 s = .value r) :
    ∃ s' flow, b.onTag body o s' = .value flow := by
  obtain ⟨fuel', s', hwalk⟩ := walkFrom_reaches ho hbody h
  obtain ⟨_, flow, hflow, _⟩ := walkFrom_passed_value ho.end_lt hpassed hwalk
  exact ⟨s', flow, hflow⟩

/-! ## Walks that do not return -/

variable {body : TagBody σ ρ}

/-- A round where the loop goes on but there is no header in the block. -/
theorem walkFrom_outside (htest : b.addrAt (o + 8) ≤ b.addrAt b.totalSize)
    (hout : ¬(b.addr.toNat ≤ (b.addrAt (o + 4)).toNat ∧
      (b.addrAt (o + 4)).toNat + 4 ≤ b.addr.toNat + b.totalSize)) :
    b.walkFrom body finish reject fuel o s ≠ .value r := by
  intro h
  cases fuel with
  | zero => exact walkFrom_zero h
  | succ fuel =>
    unfold BootInfo.walkFrom at h
    rw [walkTags, b.addrAt_add, b.addrAt_add, if_pos htest, BootInfo.read32_outside hout] at h
    simp at h

/-- If the rounding overflows, the loop stays at the tag for ever. -/
theorem walkFrom_stuck (hbody : ∀ o s flow, b.onTag body o s = .value flow → ∃ s', flow = .next s')
    (ho : b.TagAt goesOn o) (hheader : o + 8 ≤ b.totalSize) (htype : b.tagType o ≠ 0)
    (hsize : 2 ^ 32 - 8 < b.tagSize o) :
    b.walkFrom body finish reject fuel o s ≠ .value r := by
  intro h
  induction fuel generalizing s with
  | zero => exact walkFrom_zero h
  | succ fuel ih =>
    have hend := ho.end_lt
    have hnext : ¬b.addrAt b.totalSize < b.addrAt o := by
      rw [BootInfo.addrAt_lt_iff hend (by omega)]
      omega
    rw [walkFrom_round hend.le hheader (addrAt_header_le hend hheader),
      BootInfo.advance_of_gt hsize, Nat.add_zero, if_neg (by omega), if_neg hnext, if_neg htype,
      Outcome.bind_eq_value] at h
    obtain ⟨flow, hflow, hrest⟩ := h
    obtain ⟨s', rfl⟩ := hbody o s flow hflow
    exact ih hrest

/-- A walk that looks at all tags and returns has met no overflow. -/
theorem steady_of_walkFrom
    (hbody : ∀ o s flow, b.onTag body o s = .value flow → ∃ s', flow = .next s')
    (h : b.walkFrom body finish reject fuel 8 s = .value r) : Steady b := by
  have hreach : ∀ o, b.TagAt (fun _ => True) o → ∃ fuel' s',
      b.walkFrom body finish reject fuel' o s' = .value r :=
    fun o ho => walkFrom_reaches ho (fun o s flow _ _ => hbody o s flow) h
  have htotal := b.totalSize_lt
  have hrounding : ∀ o, b.TagAt (fun _ => True) o → o + 8 ≤ b.totalSize → b.tagType o ≠ 0 →
      b.tagSize o ≤ 2 ^ 32 - 8 := by
    intro o ho hheader htype
    by_contra hsize
    obtain ⟨fuel', s', hwalk⟩ := hreach o ho
    exact walkFrom_stuck hbody ho hheader htype (by omega) hwalk
  -- at an address that has wrapped around the loop goes on, outside of the block
  have hwrapped : ∀ {o fuel s}, 2 ^ 64 ≤ b.addr.toNat + o + 8 → o ≤ b.totalSize + 2 ^ 32 →
      b.addr.toNat + b.totalSize < 2 ^ 64 → b.totalSize < o + 8 →
      b.walkFrom body finish reject fuel o s ≠ .value r := by
    intro o fuel s hwrap hle hend hshort
    refine walkFrom_outside ?_ ?_
    · rw [le_def, b.toNat_addrAt_mod, b.toNat_addrAt_mod]
      omega
    · rw [b.toNat_addrAt_mod]
      omega
  refine ⟨hrounding, ?_, ?_⟩
  · intro o ho hshort
    by_contra hwrap
    obtain ⟨fuel', s', hwalk⟩ := hreach o ho
    have hle := ho.le
    exact hwrapped (by omega) (by omega) ho.end_lt hshort hwalk
  · intro o ho hheader hsize htype
    by_contra hwrap
    obtain ⟨fuel', s', hwalk⟩ := hreach o ho
    have hend := ho.end_lt
    have hle := hrounding o ho hheader htype
    have hpadded : b.paddedSize o < 2 ^ 32 := by
      unfold BootInfo.paddedSize
      omega
    have hnext : ¬b.addrAt b.totalSize < b.addrAt (o + b.paddedSize o) := by
      rw [lt_def, b.toNat_addrAt_mod, b.toNat_addrAt_mod]
      omega
    cases fuel' with
    | zero => exact walkFrom_zero hwalk
    | succ fuel' =>
      rw [walkFrom_round hend.le hheader (addrAt_header_le hend hheader),
        BootInfo.advance_of_le hle, if_neg (by omega), if_neg hnext, if_neg htype,
        Outcome.bind_eq_value] at hwalk
      obtain ⟨flow, hflow, hrest⟩ := hwalk
      obtain ⟨s'', rfl⟩ := hbody o s' flow hflow
      exact hwrapped (by omega) (by omega) hend (by omega) hrest

/-! ## The header -/

theorem walkBlock_eq (hb : b.InSpace) (hsize : 4 ≤ b.totalSize) :
    walkBlock b body finish reject fuel s =
      if b.totalSize < 8 then .value (reject s)
      else b.walkFrom body finish reject fuel 8 s := by
  have hlt := b.totalSize_lt
  have hread : b.read32 b.addr = .value (BitVec.ofNat 32 b.totalSize) := by
    have h := BootInfo.read32_inside (o := 0) hb (by omega)
    rw [b.addrAt_zero] at h
    rw [h, BootInfo.word32, b.addrAt_zero]
    rfl
  have hshort : BitVec.ofNat 32 b.totalSize < 8#32 ↔ b.totalSize < 8 :=
    ofNat_lt_iff hlt (by decide)
  rw [walkBlock, hread]
  simp only [Outcome.value_bind, hshort, setWidth_ofNat hlt]
  rfl

/-- Not even the size can be read. -/
theorem walkBlock_of_short (hsize : b.totalSize < 4) :
    walkBlock b body finish reject fuel s = .outside := by
  rw [walkBlock, BootInfo.read32_outside (by omega)]
  rfl

/-! ## A block at the end of the address space -/

section

variable (hb : b.addr.toNat + b.totalSize = 2 ^ 64) (hsize : 8 ≤ b.totalSize)

include hb

/-- The end address of such a block is 0. -/
theorem toNat_addrAt_top : (b.addrAt b.totalSize).toNat = 0 := by
  rw [b.toNat_addrAt_mod, hb, Nat.mod_self]

include hsize

/-- The loop goes on exactly if the block has 16 bytes. -/
theorem top_test_iff : b.addrAt (8 + 8) ≤ b.addrAt b.totalSize ↔ b.totalSize = 16 := by
  have hlt := b.totalSize_lt
  rw [le_def, toNat_addrAt_top hb, b.toNat_addrAt_mod]
  omega

/-- No tag is looked at. -/
theorem walkFrom_at_top (hlong : b.totalSize ≠ 16) :
    b.walkFrom body finish reject (fuel + 1) 8 s = .value (finish s) :=
  walkFrom_done fun htest => hlong ((top_test_iff hb hsize).mp htest)

/-- If the block has 16 bytes, its only tag is looked at, which changes nothing. -/
theorem walkFrom_at_top_returns {body : ℕ → TagBody σ ρ}
    (hbody : ∀ g a type s, body g a type 8#32 s = .value (.next s)) (s : σ) :
    ∃ r, (r = finish s ∨ r = reject s) ∧
      ∀ g f, 2 ≤ f → b.walkFrom (body g) finish reject f 8 s = .value r := by
  have hround : ∀ r, r = finish s ∨ r = reject s →
      (∀ g f, b.walkFrom (body g) finish reject (f + 2) 8 s = .value r) →
      ∃ r, (r = finish s ∨ r = reject s) ∧
        ∀ g f, 2 ≤ f → b.walkFrom (body g) finish reject f 8 s = .value r := by
    intro r hr h
    refine ⟨r, hr, fun g f hf => ?_⟩
    rw [← Nat.sub_add_cancel hf]
    exact h g (f - 2)
  by_cases h16 : b.totalSize = 16
  swap
  · exact hround (finish s) (.inl rfl) fun g f => walkFrom_at_top hb hsize h16
  have hwalk (g f : ℕ) : b.walkFrom (body g) finish reject (f + 2) 8 s = _ :=
    walkFrom_round (le_of_eq hb) (by omega) ((top_test_iff hb hsize).mpr h16)
  by_cases hsmall : b.tagSize 8 < 8
  · exact hround (reject s) (.inr rfl) fun g f => by rw [hwalk, if_pos hsmall]
  by_cases hfar : b.addrAt b.totalSize < b.addrAt (8 + b.advance 8)
  · exact hround (reject s) (.inr rfl) fun g f => by rw [hwalk, if_neg hsmall, if_pos hfar]
  by_cases htype : b.tagType 8 = 0
  · exact hround (finish s) (.inl rfl) fun g f => by
      rw [hwalk, if_neg hsmall, if_neg hfar, if_pos htype]
  -- the tag has size 8 and ends at the end of the address space
  have hsize8 : b.tagSize 8 = 8 := by
    have hlt8 := b.tagSize_lt 8
    rw [lt_def, toNat_addrAt_top hb, b.toNat_addrAt_mod, BootInfo.advance] at hfar
    omega
  have hadvance : b.advance 8 = 8 := by
    rw [BootInfo.advance, hsize8]
    rfl
  refine hround (finish s) (.inl rfl) fun g f => ?_
  rw [hwalk, if_neg hsmall, if_neg hfar, if_neg htype, BootInfo.onTag, hsize8, hbody, hadvance]
  refine walkFrom_done ?_
  rw [le_def, toNat_addrAt_top hb, b.toNat_addrAt_mod]
  omega

end

/-! ## The whole walk -/

/-- A walk over a block without overflows returns if what it does with the tags does. -/
theorem walkBlock_returns {body : ℕ → TagBody σ ρ}
    (hb : b.InSpace) (hheader : 4 ≤ b.totalSize) (hsteady : Steady b)
    (hbody : ∀ o s, b.TagAt goesOn o → b.Passed o → Responds b body goesOn o s)
    (hempty : ∀ g a type s, body g a type 8#32 s = .value (.next s)) (s : σ) :
    ∃ r, ∀ fuel, b.totalSize + 2 ≤ fuel →
      walkBlock b (body fuel) finish reject fuel s = .value r := by
  by_cases hshort : b.totalSize < 8
  · refine ⟨reject s, fun fuel _ => ?_⟩
    rw [walkBlock_eq hb hheader, if_pos hshort]
  have hof : ∀ {r}, (∀ fuel, b.totalSize + 2 ≤ fuel →
      b.walkFrom (body fuel) finish reject fuel 8 s = .value r) →
      ∃ r, ∀ fuel, b.totalSize + 2 ≤ fuel →
        walkBlock b (body fuel) finish reject fuel s = .value r := by
    intro r h
    refine ⟨r, fun fuel hfuel => ?_⟩
    rw [walkBlock_eq hb hheader, if_neg hshort]
    exact h fuel hfuel
  rcases Nat.lt_or_ge (b.addr.toNat + b.totalSize) (2 ^ 64) with hend | hend
  · obtain ⟨r, hr⟩ := hsteady.settles (s := s) hbody (Nat.sub_le b.totalSize 8)
      (.first (by omega) hend)
    exact hof fun fuel hfuel => hr fuel fuel (by omega) (by omega)
  · obtain ⟨r, _, hr⟩ := walkFrom_at_top_returns (Nat.le_antisymm hb hend) (by omega) hempty s
    exact hof fun fuel hfuel => hr fuel fuel (by omega)

/-- A walk over a block that ends at the end of the address space finds nothing. -/
theorem walkBlock_at_top {body : ℕ → TagBody σ ρ}
    (hb : b.addr.toNat + b.totalSize = 2 ^ 64) (hheader : 4 ≤ b.totalSize)
    (hempty : ∀ g a type s, body g a type 8#32 s = .value (.next s))
    (hsame : reject s = finish s) {fuel : ℕ} (hfuel : 2 ≤ fuel) :
    walkBlock b (body fuel) finish reject fuel s = .value (finish s) := by
  rw [walkBlock_eq (le_of_eq hb) hheader]
  by_cases hshort : b.totalSize < 8
  · rw [if_pos hshort, hsame]
  · obtain ⟨r, hr, hwalk⟩ := walkFrom_at_top_returns hb (by omega) hempty s
    rw [if_neg hshort, hwalk fuel fuel hfuel]
    obtain rfl | rfl := hr
    · rfl
    · rw [hsame]

end

end GnuOS.Boot
