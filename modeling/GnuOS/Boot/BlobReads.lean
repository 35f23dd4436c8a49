import GnuOS.Boot.KernelBlob

/-!
# Segments of the kernel blob

Which bytes `gnuos_load_kernel_segments` reads.  The checks of the loop add offsets and sizes from
the blob in 64 bits before they compare the sum with the size of the blob, so they are right as long
as no sum overflows.

A segment is written to the address that its header names.  That may be in the blob, and then the
later rounds find other headers: `load_ends` says for every round what it reads of the memory that
it finds.  As long as the segments are written elsewhere, every round finds the blob as the first
one did, and all reads are inside exactly if no sum overflows (`load_defined_iff_sound`).
-/

namespace GnuOS.Boot

open GnuOS.Lib Function
open BitVec hiding not_and not_or

namespace KernelBlob

/-! ## Fields of the blob -/

/-- The blob is an object of the address space, and its size is a difference of pointers. -/
def InSpace (blob : KernelBlob) : Prop :=
  blob.start.toNat + blob.size.toNat ≤ 2 ^ 64 ∧ blob.size.toNat < 2 ^ 63

/-- The `n` bytes at an offset lie in the blob. -/
def Holds (blob : KernelBlob) (offset : BitVec 64) (n : ℕ) : Prop :=
  offset.toNat + n ≤ blob.size.toNat

instance (blob : KernelBlob) (offset : BitVec 64) (n : ℕ) : Decidable (blob.Holds offset n) :=
  Nat.decLe _ _

/-- The two memories have the same bytes in the blob. -/
def Same (blob : KernelBlob) (mem mem' : Memory) : Prop :=
  mem.SameBytes mem' blob.start blob.size.toNat

variable {blob : KernelBlob} {mem mem' : Memory} {w : ℕ} {offset : BitVec 64}

/-- Part of a range in the blob. -/
theorem Holds.part {n k l : ℕ} (h : blob.Holds offset n) (hkl : k + l ≤ n) :
    blob.Holds (offset + BitVec.ofNat 64 k) l := by
  have hsize := blob.size.isLt
  unfold Holds at h ⊢
  rw [toNat_add, toNat_ofNat]
  omega

variable (hspace : blob.InSpace)

include hspace

/-- Two ranges of which the second one reaches farther. -/
theorem Holds.join {n k l : ℕ} (h : blob.Holds offset n)
    (hpart : blob.Holds (offset + BitVec.ofNat 64 k) l) (hk : k < 2 ^ 63) :
    blob.Holds offset (k + l) := by
  have hsize := hspace.2
  unfold Holds at h hpart ⊢
  rw [toNat_add, toNat_ofNat] at hpart
  omega

theorem read_eq (hw : 0 < w / 8) (mem : Memory) (offset : BitVec 64) :
    blob.read mem w offset = if blob.Holds offset (w / 8) then
      .value (BitVec.ofNat w (mem.load (blob.start + offset) (w / 8))) else .outside := by
  have hread : blob.region.read mem (blob.start + offset) (w / 8) =
      if blob.Holds offset (w / 8) then .value (mem.load (blob.start + offset) (w / 8))
      else .outside := Region.read_offset (r := blob.region) hspace.1 hw offset
  unfold read
  rw [hread]
  split <;> rfl

theorem read_ends (hw : 0 < w / 8) (mem : Memory) (offset : BitVec 64) :
    Outcome.Ends (blob.Holds offset (w / 8)) (· = blob.field mem w offset)
      (blob.read mem w offset) := by
  unfold field
  rw [read_eq hspace hw]
  by_cases hheld : blob.Holds offset (w / 8)
  · rw [if_pos hheld]
    exact .value _ hheld rfl
  · rw [if_neg hheld]
    exact .outside hheld

theorem Same.field (h : blob.Same mem mem') (hw : 0 < w / 8) (offset : BitVec 64) :
    blob.field mem' w offset = blob.field mem w offset := by
  unfold KernelBlob.field
  rw [read_eq hspace hw, read_eq hspace hw]
  by_cases hheld : blob.Holds offset (w / 8)
  · have hload := h.load (show offset.toNat + w / 8 ≤ blob.size.toNat from hheld)
    rw [ofNat_toNat, setWidth_eq] at hload
    rw [hload]
  · rw [if_neg hheld, if_neg hheld]

theorem Same.ehdr (h : blob.Same mem mem') : blob.ehdr mem' = blob.ehdr mem := by
  unfold KernelBlob.ehdr
  simp only [h.field hspace (w := 8) (by decide), h.field hspace (w := 16) (by decide),
    h.field hspace (w := 64) (by decide)]

end KernelBlob

/-! ## Writes -/

section

variable {mem mem' : Memory} {blob : KernelBlob} {dst src a : BitVec 64} {n : ℕ}

/-- The memory after a copy, whose source is in the blob. -/
def copied (blob : KernelBlob) (mem : Memory) (dst src : BitVec 64) : ℕ → Memory
  | 0 => mem
  | n + 1 => copied blob (update mem dst (blob.field mem 8 src)) (dst + 1#64) (src + 1#64) n

/-- An address that is none of the next `n + 1` is not the next one and none of the `n` behind. -/
theorem ne_of_apart (h : ∀ k, k < n + 1 → a ≠ dst + BitVec.ofNat 64 k) :
    a ≠ dst ∧ ∀ k, k < n → a ≠ dst + 1#64 + BitVec.ofNat 64 k := by
  constructor
  · have hfirst := h 0 (by omega)
    rwa [show dst + BitVec.ofNat 64 0 = dst from BitVec.add_zero dst] at hfirst
  · intro k hk
    have hnext := h (1 + k) (by omega)
    rwa [← Memory.addr_add dst 1 k] at hnext

theorem gnuosMemset_other (value : BitVec 8) (h : ∀ k, k < n → a ≠ dst + BitVec.ofNat 64 k) :
    gnuosMemset mem dst value n a = mem a := by
  induction n generalizing mem dst with
  | zero => rfl
  | succ n ih =>
    obtain ⟨hfirst, hrest⟩ := ne_of_apart h
    rw [gnuosMemset, ih hrest, update_of_ne hfirst]

theorem copied_other (h : ∀ k, k < n → a ≠ dst + BitVec.ofNat 64 k) :
    copied blob mem dst src n a = mem a := by
  induction n generalizing mem dst src with
  | zero => rfl
  | succ n ih =>
    obtain ⟨hfirst, hrest⟩ := ne_of_apart h
    rw [copied, ih hrest, update_of_ne hfirst]

/-- The content of a segment lies in the blob. -/
def ContentInside (blob : KernelBlob) (src : BitVec 64) (n : ℕ) : Prop :=
  n = 0 ∨ src.toNat + n ≤ blob.size.toNat

theorem gnuosMemcpy_ends (hspace : blob.InSpace) (mem : Memory) (dst src : BitVec 64) (n : ℕ) :
    Outcome.Ends (ContentInside blob src n) (· = copied blob mem dst src n)
      (gnuosMemcpy blob mem dst src n) := by
  induction n generalizing mem dst src with
  | zero => exact .value mem (.inl rfl) rfl
  | succ n ih =>
    have hsize := blob.size.isLt
    refine (KernelBlob.read_ends (w := 8) hspace (by decide) mem src).bind ?_ ?_
    · rintro (hzero | hle)
      · cases hzero
      · exact Nat.le_trans (by omega) hle
    · rintro byte hheld rfl
      have hlt : src.toNat + 1 ≤ blob.size.toNat := hheld
      refine (ih _ (dst + 1#64) (src + 1#64)).congr ?_ fun _ h => h
      unfold ContentInside
      rw [toNat_add, toNat_ofNat]
      omega

end

/-! ## Program headers -/

/-- The fields of `elf64_phdr_t` that are read. -/
structure Elf64Phdr where
  pType : BitVec 32
  pOffset : BitVec 64
  pPaddr : BitVec 64
  pFilesz : BitVec 64
  pMemsz : BitVec 64

/-- The firmware refuses the pages of the segment. -/
def Elf64Phdr.Refused (p : Elf64Phdr) (allocatePages : AllocatePages) (i : ℕ) : Prop :=
  allocatePages.refuses i (segmentPages p.pPaddr p.pMemsz) (p.pPaddr &&& ~~~0xFFF#64) = true

namespace KernelBlob

variable (allocatePages : AllocatePages) (blob : KernelBlob) (mem : Memory) (i : ℕ)

/-- The offset of a program header, in a round that begins with the memory `m`. -/
def phdrOffset (m : Memory) : BitVec 64 :=
  (blob.ehdr mem).ePhoff + BitVec.ofNat 64 i * (blob.ehdr m).ePhentsize.setWidth 64

/-- The program header at an offset. -/
def phdr (offset : BitVec 64) : Elf64Phdr where
  pType := blob.field mem 32 offset
  pOffset := blob.field mem 64 (offset + 8#64)
  pPaddr := blob.field mem 64 (offset + 24#64)
  pFilesz := blob.field mem 64 (offset + 32#64)
  pMemsz := blob.field mem 64 (offset + 40#64)

/-- The loop returns a failure at the header. -/
def Stops (p : Elf64Phdr) : Prop :=
  p.pType = elf64PtLoad ∧
    (p.pMemsz < p.pFilesz ∨ blob.size < p.pOffset + p.pFilesz ∨ p.Refused allocatePages i)

/-- The loop loads the segment of the header. -/
def Loads (p : Elf64Phdr) : Prop :=
  p.pType = elf64PtLoad ∧ ¬ blob.Stops allocatePages i p

/-- The memory when the segment of a header has been cleared. -/
def cleared (p : Elf64Phdr) : Memory := gnuosMemset mem p.pPaddr 0#8 p.pMemsz.toNat

/-- The memory after a header at which the loop goes on.  The header is read again for the copy. -/
def afterHeader (offset : BitVec 64) : Memory :=
  let p := blob.phdr mem offset
  let m := cleared mem p
  if p.pType = elf64PtLoad then
    copied blob m p.pPaddr (blob.phdr m offset).pOffset (blob.phdr m offset).pFilesz.toNat
  else mem

/-- What the loop reads of the header and of its segment lies in the blob. -/
def SegmentInside (offset : BitVec 64) : Prop :=
  let p := blob.phdr mem offset
  let m := cleared mem p
  blob.Holds offset 4 ∧ (p.pType = elf64PtLoad → blob.Holds offset 48) ∧
    (blob.Loads allocatePages i p →
      ContentInside blob (blob.phdr m offset).pOffset (blob.phdr m offset).pFilesz.toNat)

/-- Round `i` goes on from the memory `m` to the next one. -/
def Goes (i : ℕ) (m m' : Memory) : Prop :=
  i < (blob.ehdr m).ePhnum.toNat ∧
    ¬ blob.Stops allocatePages i (blob.phdr m (blob.phdrOffset mem i m)) ∧
    m' = blob.afterHeader m (blob.phdrOffset mem i m)

/-- Every round that is reached reads inside the blob, in the memory that it finds. -/
def RoundsInside : Prop :=
  ∀ i m, Outcome.Reached (blob.Goes allocatePages mem) mem i m →
    i < (blob.ehdr m).ePhnum.toNat →
      blob.SegmentInside allocatePages m i (blob.phdrOffset mem i m)

/-- The check of the table passes. -/
def TableFits : Prop :=
  ¬ blob.size < (blob.ehdr mem).ePhoff +
    (blob.ehdr mem).ePhnum.setWidth 64 * (blob.ehdr mem).ePhentsize.setWidth 64

end KernelBlob

section

open KernelBlob

variable (allocatePages : AllocatePages) {blob : KernelBlob} (hspace : blob.InSpace)

include hspace

/-- The body of the loop: it goes on, or returns a failure. -/
theorem loadSegment_ends (m : Memory) (i : ℕ) (offset : BitVec 64) :
    Outcome.Ends (blob.SegmentInside allocatePages m i offset)
      (fun r =>
        ¬ blob.Stops allocatePages i (blob.phdr m offset) ∧ r = (none, blob.afterHeader m offset) ∨
        blob.Stops allocatePages i (blob.phdr m offset) ∧
          ∃ status, status ≠ efiSuccess ∧ r = (some status, m))
      (loadSegment allocatePages blob i offset m) := by
  unfold loadSegment
  refine (read_ends hspace (by decide) m offset).bind (fun h => h.1) ?_
  rintro _ htypeIn rfl
  split
  case isTrue htype =>
    have hafter : blob.afterHeader m offset = m := if_neg htype
    exact .value _ ⟨htypeIn, fun h => absurd h htype, fun h => absurd h.1 htype⟩
      (.inl ⟨fun h => htype h.1, by rw [hafter]⟩)
  rename_i htype
  have htype : (blob.phdr m offset).pType = elf64PtLoad := not_not.mp htype
  refine (read_ends hspace (by decide) m _).bind
    (fun h => (h.2.1 htype).part (k := 32) (by decide)) ?_
  rintro _ - rfl
  refine (read_ends hspace (by decide) m _).bind
    (fun h => (h.2.1 htype).part (k := 40) (by decide)) ?_
  rintro _ hmemszIn rfl
  have hheader : blob.Holds offset 48 := htypeIn.join hspace (k := 40) hmemszIn (by decide)
  -- a segment that is not loaded has no content to be read
  have hstopped (hstops : blob.Stops allocatePages i (blob.phdr m offset)) :
      blob.SegmentInside allocatePages m i offset :=
    ⟨htypeIn, fun _ => hheader, fun h => absurd hstops h.2⟩
  split
  case isTrue hless =>
    have hstops : blob.Stops allocatePages i (blob.phdr m offset) := ⟨htype, .inl hless⟩
    exact .value _ (hstopped hstops) (.inr ⟨hstops, 2, by decide, rfl⟩)
  rename_i hless
  refine (read_ends hspace (by decide) m _).bind (fun _ => hheader.part (k := 8) (by decide)) ?_
  rintro _ - rfl
  split
  case isTrue hsum =>
    have hstops : blob.Stops allocatePages i (blob.phdr m offset) := ⟨htype, .inr (.inl hsum)⟩
    exact .value _ (hstopped hstops) (.inr ⟨hstops, 3, by decide, rfl⟩)
  rename_i hsum
  refine (read_ends hspace (by decide) m _).bind (fun _ => hheader.part (k := 24) (by decide)) ?_
  rintro _ - rfl
  split
  case isTrue hrefused =>
    have hstops : blob.Stops allocatePages i (blob.phdr m offset) :=
      ⟨htype, .inr (.inr hrefused)⟩
    exact .value _ (hstopped hstops) (.inr ⟨hstops, 4, by decide, rfl⟩)
  rename_i hrefused
  have hgoes : ¬ blob.Stops allocatePages i (blob.phdr m offset) := by
    rintro ⟨-, h | h | h⟩
    · exact hless h
    · exact hsum h
    · exact hrefused h
  -- the segment is loaded
  show Outcome.Ends _ _ (copySegment blob offset (blob.phdr m offset).pPaddr
    (blob.phdr m offset).pMemsz m >>= fun m' => .value (none, m'))
  have hcopy : Outcome.Ends (blob.SegmentInside allocatePages m i offset)
      (· = blob.afterHeader m offset) (copySegment blob offset (blob.phdr m offset).pPaddr
        (blob.phdr m offset).pMemsz m) := by
    unfold copySegment
    refine (read_ends hspace (by decide) _ _).bind (fun _ => hheader.part (k := 8) (by decide)) ?_
    rintro _ - rfl
    refine (read_ends hspace (by decide) _ _).bind (fun _ => hheader.part (k := 32) (by decide)) ?_
    rintro _ - rfl
    refine (gnuosMemcpy_ends hspace _ _ _ _).congr
      ⟨fun h => ⟨htypeIn, fun _ => hheader, fun _ => h⟩, fun h => h.2.2 ⟨htype, hgoes⟩⟩ ?_
    rintro m' rfl
    exact (if_pos htype).symm
  refine hcopy.bind id ?_
  rintro m' hgood rfl
  exact .value _ hgood (.inl ⟨hgoes, rfl⟩)

/-! ## The loop over the segments -/

/-- A round of the loop.  Past the last header it returns with success. -/
theorem loadRound_ends (mem m : Memory) (i : ℕ) :
    Outcome.Ends (i < (blob.ehdr m).ePhnum.toNat →
        blob.SegmentInside allocatePages m i (blob.phdrOffset mem i m))
      (fun r => (∀ m', r = (none, m') ↔ blob.Goes allocatePages mem i m m') ∧
        (r.1 = some efiSuccess → (blob.ehdr m).ePhnum.toNat ≤ i ∧ r.2 = m))
      (loadRound allocatePages blob (blob.ehdr mem).ePhoff i m) := by
  unfold loadRound Goes
  split
  case isTrue hlast =>
    refine .value _ (fun h => absurd h (by omega)) ⟨?_, fun _ => ⟨hlast, rfl⟩⟩
    exact fun m' => iff_of_false (by simp) fun h => absurd h.1 (by omega)
  rename_i hnext
  have hi : i < (blob.ehdr m).ePhnum.toNat := by omega
  refine (loadSegment_ends allocatePages hspace m i _).congr ⟨fun h _ => h, fun h => h hi⟩ ?_
  rintro r (⟨hgoes, rfl⟩ | ⟨hstops, status, hstatus, rfl⟩)
  · refine ⟨?_, by simp⟩
    intro m'
    rw [Prod.mk.injEq, eq_comm (a := blob.afterHeader _ _)]
    exact ⟨fun h => ⟨hi, hgoes, h.2⟩, fun h => ⟨rfl, h.2.2⟩⟩
  · exact ⟨fun m' => iff_of_false (by simp) fun h => h.2.1 hstops,
      fun h => absurd (Option.some_inj.mp h) hstatus⟩

/-- The function reads inside the blob exactly if every round that is reached does.  After a success
the last round has found no header. -/
theorem load_ends (mem : Memory) :
    Outcome.Ends (blob.TableFits mem → blob.RoundsInside allocatePages mem)
      (fun r => r.1 = efiSuccess → blob.TableFits mem ∧
        ∃ k, Outcome.Reached (blob.Goes allocatePages mem) mem k r.2 ∧
          (blob.ehdr r.2).ePhnum.toNat ≤ k)
      (gnuosLoadKernelSegments allocatePages blob mem) := by
  unfold gnuosLoadKernelSegments
  simp only
  split
  case isTrue hover =>
    exact .value _ (fun h => absurd hover h) fun h => absurd h (show 1 ≠ efiSuccess by decide)
  rename_i hfits
  refine (Outcome.Ends.rounds (fun k m => (loadRound_ends allocatePages hspace mem m k).congr
    Iff.rfl fun r h => h.1) 65535 mem).bind ?_ ?_
  · intro h k _ m hreached
    exact h hfits k m hreached
  · rintro ⟨status, m⟩ hgood ⟨hreached, hreturned⟩
    refine .value _ ?_ ?_
    · intro _ k m hk hlt
      have hphnum := (blob.ehdr m).ePhnum.isLt
      exact hgood k (by omega) m hk hlt
    · intro hstatus
      refine ⟨hfits, ?_⟩
      cases status with
      | none =>
        have hphnum := (blob.ehdr m).ePhnum.isLt
        refine ⟨65535, (hreached m).mp rfl, ?_⟩
        show (blob.ehdr m).ePhnum.toNat ≤ 65535
        omega
      | some status =>
        obtain ⟨k, -, t, ht, hround⟩ := hreturned rfl
        have hends := loadRound_ends allocatePages hspace mem t k
        rw [hround] at hends
        obtain ⟨hlast, hmem⟩ := hends.of_value.2.2 (congrArg some hstatus)
        have hmem : m = t := hmem
        subst hmem
        exact ⟨k, ht, hlast⟩

end

/-! ## Segments that are loaded elsewhere -/

namespace KernelBlob

variable (allocatePages : AllocatePages) (blob : KernelBlob) (mem : Memory)

/-- The program header `i`, as it is before the first round. -/
def header (i : ℕ) : Elf64Phdr := blob.phdr mem (blob.phdrOffset mem i mem)

/-- The segment of the header is not loaded over the blob. -/
def Apart (p : Elf64Phdr) : Prop :=
  ∀ k x, k < p.pMemsz.toNat → x < blob.size.toNat →
    blob.start + BitVec.ofNat 64 x ≠ p.pPaddr + BitVec.ofNat 64 k

/-- No segment that is loaded is loaded over the blob. -/
def LoadsApart : Prop :=
  ∀ i, i < (blob.ehdr mem).ePhnum.toNat →
    (∀ j, j < i → ¬ blob.Stops allocatePages j (blob.header mem j)) →
    blob.Loads allocatePages i (blob.header mem i) → blob.Apart (blob.header mem i)

/-- The sums that the loop compares with the size of the blob are right: the end of the header
table, and the end of every segment that is loaded. -/
def SegmentsSound : Prop :=
  blob.TableFits mem →
    (blob.ehdr mem).ePhoff.toNat +
      (blob.ehdr mem).ePhnum.toNat * (blob.ehdr mem).ePhentsize.toNat < 2 ^ 64 ∧
    ∀ i, i < (blob.ehdr mem).ePhnum.toNat →
      (∀ j, j < i → ¬ blob.Stops allocatePages j (blob.header mem j)) →
      blob.Loads allocatePages i (blob.header mem i) →
      (blob.header mem i).pOffset.toNat + (blob.header mem i).pFilesz.toNat < 2 ^ 64

end KernelBlob

section

open KernelBlob

variable {allocatePages : AllocatePages} {blob : KernelBlob} {mem m : Memory} {i : ℕ}
  {offset : BitVec 64}

theorem KernelBlob.Same.cleared (h : blob.Same mem m) {p : Elf64Phdr} (hapart : blob.Apart p) :
    blob.Same mem (cleared m p) := by
  intro x hx
  rw [KernelBlob.cleared, gnuosMemset_other 0#8 fun k hk => hapart k x hk hx]
  exact h x hx

theorem KernelBlob.Loads.sum {p : Elf64Phdr} (h : blob.Loads allocatePages i p) :
    ¬ blob.size < p.pOffset + p.pFilesz :=
  fun hsum => h.2 ⟨h.1, .inr (.inl hsum)⟩

theorem content_le_of_inside {filesz : BitVec 64} (hsum : ¬ blob.size < offset + filesz)
    (h : ContentInside blob offset filesz.toNat) :
    offset.toNat + filesz.toNat ≤ blob.size.toNat := by
  rcases h with hzero | hle
  · rw [lt_def, toNat_add, hzero] at hsum
    have hoffset := offset.isLt
    omega
  · exact hle

/-- The offset behind `n` records of a table. -/
theorem toNat_stride (base : BitVec 64) {n : ℕ} (hn : n < 2 ^ 16) (size : BitVec 16) :
    (base + BitVec.ofNat 64 n * size.setWidth 64).toNat =
      (base.toNat + n * size.toNat) % 2 ^ 64 := by
  have hsize := size.isLt
  have hmul : n * size.toNat < 2 ^ 16 * 2 ^ 16 := Nat.mul_lt_mul'' hn hsize
  rw [toNat_add, toNat_mul, toNat_ofNat, toNat_setWidth,
    Nat.mod_eq_of_lt (show n < 2 ^ 64 by omega),
    Nat.mod_eq_of_lt (show size.toNat < 2 ^ 64 by omega),
    Nat.mod_eq_of_lt (show n * size.toNat < 2 ^ 64 by omega)]

/-- The headers of a table whose end is right lie in the blob. -/
theorem header_inside (hphentsize : 56 ≤ (blob.ehdr mem).ePhentsize.toNat)
    (hfits : blob.TableFits mem)
    (htable : (blob.ehdr mem).ePhoff.toNat +
      (blob.ehdr mem).ePhnum.toNat * (blob.ehdr mem).ePhentsize.toNat < 2 ^ 64)
    (hi : i < (blob.ehdr mem).ePhnum.toNat) :
    (blob.phdrOffset mem i mem).toNat + 56 ≤ blob.size.toNat := by
  have hphnum := (blob.ehdr mem).ePhnum.isLt
  have hend : (blob.ehdr mem).ePhoff.toNat +
      (blob.ehdr mem).ePhnum.toNat * (blob.ehdr mem).ePhentsize.toNat ≤ blob.size.toNat := by
    rw [TableFits, lt_def, ← ofNat_toNat (m := 64) (x := (blob.ehdr mem).ePhnum),
      toNat_stride _ hphnum, Nat.mod_eq_of_lt htable] at hfits
    omega
  have hrecord : (i + 1) * (blob.ehdr mem).ePhentsize.toNat ≤
      (blob.ehdr mem).ePhnum.toNat * (blob.ehdr mem).ePhentsize.toNat :=
    Nat.mul_le_mul_right _ hi
  rw [Nat.succ_mul] at hrecord
  rw [phdrOffset, toNat_stride _ (by omega), Nat.mod_eq_of_lt (by omega)]
  omega

variable (hspace : blob.InSpace)

include hspace

theorem KernelBlob.Same.phdr (h : blob.Same mem m) : blob.phdr m = blob.phdr mem := by
  funext offset
  unfold KernelBlob.phdr
  simp only [h.field hspace (w := 32) (by decide), h.field hspace (w := 64) (by decide)]

theorem KernelBlob.Same.phdrOffset (h : blob.Same mem m) (i : ℕ) :
    blob.phdrOffset mem i m = blob.phdrOffset mem i mem := by
  unfold KernelBlob.phdrOffset
  rw [h.ehdr hspace]

theorem KernelBlob.Same.afterHeader (h : blob.Same mem m)
    (hgoes : ¬ blob.Stops allocatePages i (blob.phdr mem offset))
    (hapart : blob.Loads allocatePages i (blob.phdr mem offset) →
      blob.Apart (blob.phdr mem offset)) : blob.Same mem (blob.afterHeader m offset) := by
  unfold KernelBlob.afterHeader
  simp only [h.phdr hspace]
  split
  case isFalse => exact h
  rename_i htype
  have hdst := hapart ⟨htype, hgoes⟩
  have hcleared := h.cleared hdst
  rw [hcleared.phdr hspace]
  intro x hx
  rw [copied_other]
  · exact hcleared x hx
  · intro k hk
    refine hdst k x (Nat.lt_of_lt_of_le hk (Nat.le_of_not_lt ?_)) hx
    exact fun hless => hgoes ⟨htype, .inl hless⟩

/-- A round that finds the blob as it was reads the header and the segment that were there. -/
theorem segmentInside_same (h : blob.Same mem m)
    (hapart : blob.Loads allocatePages i (blob.phdr mem offset) →
      blob.Apart (blob.phdr mem offset)) :
    blob.SegmentInside allocatePages m i offset ↔
      blob.Holds offset 4 ∧
        ((blob.phdr mem offset).pType = elf64PtLoad → blob.Holds offset 48) ∧
        (blob.Loads allocatePages i (blob.phdr mem offset) → ContentInside blob
          (blob.phdr mem offset).pOffset (blob.phdr mem offset).pFilesz.toNat) := by
  unfold SegmentInside
  simp only [h.phdr hspace]
  refine and_congr_right fun _ => and_congr_right fun _ => imp_congr_right fun hloads => ?_
  rw [(h.cleared (hapart hloads)).phdr hspace]

variable (hapart : blob.LoadsApart allocatePages mem)

include hapart

/-- Every round that is reached finds the blob as it was. -/
theorem reached_same
    (h : Outcome.Reached (blob.Goes allocatePages mem) mem i m) :
    blob.Same mem m ∧ ∀ j < i, j < (blob.ehdr mem).ePhnum.toNat ∧
      ¬ blob.Stops allocatePages j (blob.header mem j) := by
  induction h with
  | first => exact ⟨fun _ _ => rfl, fun j hj => absurd hj (Nat.not_lt_zero j)⟩
  | @next k t t' _ hgoes ih =>
    obtain ⟨hsame, hbefore⟩ := ih
    obtain ⟨hlt, hgo, rfl⟩ := hgoes
    rw [hsame.ehdr hspace] at hlt
    rw [hsame.phdr hspace, hsame.phdrOffset hspace] at hgo
    rw [hsame.phdrOffset hspace]
    exact ⟨hsame.afterHeader hspace hgo (hapart k hlt fun j hj => (hbefore j hj).2),
      Nat.forall_lt_succ_right.mpr ⟨hbefore, hlt, hgo⟩⟩

/-- The rounds up to the first header that stops the loop are reached. -/
theorem exists_reached
    (h : ∀ j < i, j < (blob.ehdr mem).ePhnum.toNat ∧
      ¬ blob.Stops allocatePages j (blob.header mem j)) :
    ∃ m, Outcome.Reached (blob.Goes allocatePages mem) mem i m := by
  induction i with
  | zero => exact ⟨mem, .first⟩
  | succ i ih =>
    rw [Nat.forall_lt_succ_right] at h
    obtain ⟨m, hm⟩ := ih h.1
    have hsame := (reached_same hspace hapart hm).1
    refine ⟨_, .next hm ⟨?_, ?_, rfl⟩⟩
    · rw [hsame.ehdr hspace]
      exact h.2.1
    · rw [hsame.phdr hspace, hsame.phdrOffset hspace]
      exact h.2.2

theorem RoundsInside.segment (h : blob.RoundsInside allocatePages mem)
    (hi : i < (blob.ehdr mem).ePhnum.toNat)
    (hbefore : ∀ j < i, ¬ blob.Stops allocatePages j (blob.header mem j)) :
    blob.Holds (blob.phdrOffset mem i mem) 4 ∧
      (blob.Loads allocatePages i (blob.header mem i) → ContentInside blob
        (blob.header mem i).pOffset (blob.header mem i).pFilesz.toNat) := by
  obtain ⟨m, hm⟩ := exists_reached hspace hapart
    fun j hj => ⟨Nat.lt_trans hj hi, hbefore j hj⟩
  have hsame := (reached_same hspace hapart hm).1
  have hround := h i m hm (by rw [hsame.ehdr hspace]; exact hi)
  rw [hsame.phdrOffset hspace, segmentInside_same hspace hsame (hapart i hi hbefore)] at hround
  exact ⟨hround.1, hround.2.2⟩

/-- Segments that are loaded elsewhere are read inside the blob exactly if the sums are right. -/
theorem load_defined_iff_sound (hphentsize : 56 ≤ (blob.ehdr mem).ePhentsize.toNat)
    (hphnum : 0 < (blob.ehdr mem).ePhnum.toNat) :
    (gnuosLoadKernelSegments allocatePages blob mem).Defined ↔
      blob.SegmentsSound allocatePages mem := by
  rw [(load_ends allocatePages hspace mem).defined_iff]
  refine imp_congr_right fun hfits => ⟨fun h => ⟨?_, ?_⟩, ?_⟩
  · have hfirst := (RoundsInside.segment hspace hapart h hphnum
      fun j hj => absurd hj (Nat.not_lt_zero j)).1
    have hphoff : (blob.phdrOffset mem 0 mem).toNat = (blob.ehdr mem).ePhoff.toNat := by
      simp [phdrOffset]
    have hmul : (blob.ehdr mem).ePhnum.toNat * (blob.ehdr mem).ePhentsize.toNat < 2 ^ 16 * 2 ^ 16 :=
      Nat.mul_lt_mul'' (blob.ehdr mem).ePhnum.isLt (blob.ehdr mem).ePhentsize.isLt
    have hsize := hspace.2
    unfold Holds at hfirst
    omega
  · intro i hi hbefore hloads
    have hcontent := (RoundsInside.segment hspace hapart h hi hbefore).2 hloads
    exact Nat.lt_of_le_of_lt (content_le_of_inside hloads.sum hcontent) blob.size.isLt
  · rintro ⟨htable, hcontents⟩ i m hm hi
    obtain ⟨hsame, hbefore⟩ := reached_same hspace hapart hm
    rw [hsame.ehdr hspace] at hi
    have hheader := header_inside hphentsize hfits htable hi
    rw [hsame.phdrOffset hspace,
      segmentInside_same hspace hsame (hapart i hi fun j hj => (hbefore j hj).2)]
    refine ⟨Nat.le_trans (by omega) hheader, fun _ => Nat.le_trans (by omega) hheader, ?_⟩
    intro hloads
    have hsum := hloads.sum
    have hsmall := hcontents i hi (fun j hj => (hbefore j hj).2) hloads
    rw [header] at hsmall
    rw [lt_def, toNat_add, Nat.mod_eq_of_lt hsmall] at hsum
    exact .inr (by omega)

/-- A successful run leaves the blob as it was, and every segment lies in it. -/
theorem load_success {mem' : Memory}
    (h : gnuosLoadKernelSegments allocatePages blob mem = .value (efiSuccess, mem')) :
    blob.Same mem mem' ∧ ∀ i, i < (blob.ehdr mem).ePhnum.toNat →
      (blob.header mem i).pType = elf64PtLoad →
        (blob.header mem i).pOffset.toNat + (blob.header mem i).pFilesz.toNat ≤
          blob.size.toNat := by
  have hends := load_ends allocatePages hspace mem
  rw [h] at hends
  obtain ⟨hgood, hsuccess⟩ := hends.of_value
  obtain ⟨hfits, k, hk, hlast⟩ := hsuccess rfl
  obtain ⟨hsame, hbefore⟩ := reached_same hspace hapart hk
  rw [hsame.ehdr hspace] at hlast
  refine ⟨hsame, ?_⟩
  intro i hi htype
  have hloads : blob.Loads allocatePages i (blob.header mem i) := ⟨htype, (hbefore i (by omega)).2⟩
  have hcontent := (RoundsInside.segment hspace hapart (hgood hfits) hi
    fun j hj => (hbefore j (by omega)).2).2 hloads
  exact content_le_of_inside hloads.sum hcontent

end

end GnuOS.Boot
