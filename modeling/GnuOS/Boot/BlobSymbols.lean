import GnuOS.Boot.BlobReads
import GnuOS.Lib.Patches

/-!
# Sections and symbols of the kernel blob

Which bytes `gnuos_find_kmain_symbol` reads.  It follows the section headers to the symbol tables
and compares the names of the symbols with `kmain`.  The size of a section header is not compared
with `e_shentsize`, and a name is read without a length: the last header and the last name can reach
past the end of the blob.  But only the type is read of a header that is no symbol table, and
nothing behind the symbol `kmain`.

`kernel_blob_reads_inside` puts the two functions together.
-/

namespace GnuOS.Boot

open GnuOS.Lib
open BitVec hiding not_or

/-! ## Names -/

/-- How many bytes of the string agree with `rhs`. -/
def KernelBlob.agreeing (blob : KernelBlob) (mem : Memory) : BitVec 64 → List (BitVec 8) → ℕ
  | _, [] => 0
  | lhs, r :: rhs => if blob.field mem 8 lhs = r then blob.agreeing mem (lhs + 1#64) rhs + 1 else 0

/-- The string is `rhs`. -/
def KernelBlob.IsString (blob : KernelBlob) (mem : Memory) (lhs : BitVec 64)
    (rhs : List (BitVec 8)) : Prop :=
  blob.agreeing mem lhs rhs = rhs.length ∧
    blob.field mem 8 (lhs + BitVec.ofNat 64 rhs.length) = 0#8

instance (blob : KernelBlob) (mem : Memory) (lhs : BitVec 64) (rhs : List (BitVec 8)) :
    Decidable (blob.IsString mem lhs rhs) := inferInstanceAs (Decidable (_ ∧ _))

section

variable {blob : KernelBlob} {mem : Memory}

/-- The byte behind those that agree is read, too. -/
theorem strEqualLoop_ends (hspace : blob.InSpace) (mem : Memory) (lhs : BitVec 64)
    {rhs : List (BitVec 8)} (hrhs : 0#8 ∉ rhs) :
    Outcome.Ends (blob.Holds lhs (blob.agreeing mem lhs rhs + 1))
      (fun equal => equal = true ↔ blob.IsString mem lhs rhs) (strEqualLoop blob mem lhs rhs) := by
  unfold KernelBlob.IsString
  induction rhs generalizing lhs with
  | nil =>
    refine (KernelBlob.read_ends (w := 8) hspace (by decide) mem lhs).bind id ?_
    rintro _ hheld rfl
    exact .value _ hheld (by simp [KernelBlob.agreeing])
  | cons r rhs ih =>
    rw [List.mem_cons, not_or] at hrhs
    refine (KernelBlob.read_ends (w := 8) hspace (by decide) mem lhs).bind
      (fun h => Nat.le_trans (by omega) h) ?_
    rintro _ hheld rfl
    rw [KernelBlob.agreeing]
    by_cases hr : blob.field mem 8 lhs = r
    · have hsize := hspace.2
      have hlt : lhs.toNat + 1 ≤ blob.size.toNat := hheld
      have hnext : lhs + 1#64 + BitVec.ofNat 64 rhs.length =
          lhs + BitVec.ofNat 64 (rhs.length + 1) := by
        rw [show (1#64) = BitVec.ofNat 64 1 from rfl, Memory.addr_add, Nat.add_comm]
      rw [if_pos hr, if_neg fun hzero => hrhs.1 (hzero.symm.trans hr), if_neg (not_not.mpr hr)]
      refine (ih (lhs + 1#64) hrhs.2).congr ?_ ?_
      · unfold KernelBlob.Holds
        rw [toNat_add, toNat_ofNat]
        omega
      · intro equal hequal
        rw [hequal, hnext, List.length_cons, Nat.add_right_cancel_iff]
    · have hshort : ¬ (0 = (r :: rhs).length ∧
          blob.field mem 8 (lhs + BitVec.ofNat 64 (r :: rhs).length) = 0#8) :=
        fun h => absurd h.1 (by simp)
      rw [if_neg hr]
      split <;> exact .value _ hheld (iff_of_false (by decide) hshort)

end

/-! ## Sections -/

/-- The fields of `elf64_shdr_t` that are read. -/
structure Elf64Shdr where
  shType : BitVec 32
  shOffset : BitVec 64
  shSize : BitVec 64
  shLink : BitVec 32
  shEntsize : BitVec 64

namespace KernelBlob

variable (blob : KernelBlob) (mem : Memory) (k s : ℕ)

def shdr : Elf64Shdr where
  shType := blob.field mem 32 ((blob.ehdr mem).shdr k + 4#64)
  shOffset := blob.field mem 64 ((blob.ehdr mem).shdr k + 24#64)
  shSize := blob.field mem 64 ((blob.ehdr mem).shdr k + 32#64)
  shLink := blob.field mem 32 ((blob.ehdr mem).shdr k + 40#64)
  shEntsize := blob.field mem 64 ((blob.ehdr mem).shdr k + 56#64)

/-- The header of the string table of a symbol table. -/
def strtab : Elf64Shdr := blob.shdr mem (blob.shdr mem k).shLink.toNat

/-- The section is a symbol table that passes the checks before its string table is looked at. -/
def Checked : Prop :=
  (blob.shdr mem k).shType = elf64ShtSymtab ∧ ¬ (blob.shdr mem k).shEntsize < 24#64 ∧
    ¬ (blob.ehdr mem).eShnum.toNat ≤ (blob.shdr mem k).shLink.toNat ∧
    ¬ blob.size < (blob.shdr mem k).shOffset + (blob.shdr mem k).shSize

/-- It passes all checks. -/
def Searched : Prop :=
  blob.Checked mem k ∧ ¬ blob.size < (blob.strtab mem k).shOffset + (blob.strtab mem k).shSize

/-- The number of symbols of a symbol table. -/
def symCount : ℕ := ((blob.shdr mem k).shSize / (blob.shdr mem k).shEntsize).toNat

/-- The offset of a symbol. -/
def symbol : BitVec 64 :=
  (blob.shdr mem k).shOffset + BitVec.ofNat 64 s * (blob.shdr mem k).shEntsize

/-- The field `st_name` of a symbol, and the offset of its name. -/
def stName : BitVec 64 := (blob.field mem 32 (blob.symbol mem k s)).setWidth 64

def name : BitVec 64 := (blob.strtab mem k).shOffset + blob.stName mem k s

/-- The name is compared: it starts in the string table and is not the null pointer. -/
def Compared : Prop :=
  blob.stName mem k s < (blob.strtab mem k).shSize ∧ blob.start + blob.name mem k s ≠ 0#64

def IsKmain : Prop := blob.Compared mem k s ∧ blob.IsString mem (blob.name mem k s) kmainName

/-- The search returns at a symbol of the section. -/
def HasKmain : Prop := blob.Searched mem k ∧ ∃ s < blob.symCount mem k, blob.IsKmain mem k s

/-- `st_name`, the name up to the first byte that differs from `kmain`, and `st_value` of `kmain`
lie in the blob. -/
def SymbolInside : Prop :=
  blob.Holds (blob.symbol mem k s) 4 ∧
    (blob.Compared mem k s → blob.Holds (blob.name mem k s)
      (blob.agreeing mem (blob.name mem k s) kmainName + 1)) ∧
    (blob.IsKmain mem k s → blob.Holds (blob.symbol mem k s) 16)

/-- `sh_type`, the header of a symbol table from there on, the fields `sh_offset` and `sh_size` of
its string table, and the symbols up to `kmain` lie in the blob. -/
def SectionInside : Prop :=
  blob.Holds ((blob.ehdr mem).shdr k + 4#64) 4 ∧
    ((blob.shdr mem k).shType = elf64ShtSymtab →
      blob.Holds ((blob.ehdr mem).shdr k + 4#64) 60) ∧
    (blob.Checked mem k →
      blob.Holds ((blob.ehdr mem).shdr (blob.shdr mem k).shLink.toNat + 24#64) 16) ∧
    (blob.Searched mem k → ∀ s < blob.symCount mem k, (∀ j < s, ¬ blob.IsKmain mem k j) →
      blob.SymbolInside mem k s)

/-- There is a section table, and its end passes the check. -/
def HasSections : Prop :=
  ¬ ((blob.ehdr mem).eShoff = 0#64 ∨ (blob.ehdr mem).eShentsize = 0#16 ∨
      (blob.ehdr mem).eShnum = 0#16) ∧
    ¬ blob.size < (blob.ehdr mem).eShoff +
      (blob.ehdr mem).eShnum.setWidth 64 * (blob.ehdr mem).eShentsize.setWidth 64

/-- The sections up to the one with `kmain`. -/
def SectionsInside : Prop :=
  ∀ k < (blob.ehdr mem).eShnum.toNat, (∀ j < k, ¬ blob.HasKmain mem j) → blob.SectionInside mem k

end KernelBlob

section

variable {blob : KernelBlob} {mem : Memory} {k : ℕ}

open KernelBlob

theorem matchSymbol_ends (hspace : blob.InSpace) (mem : Memory) (k s : ℕ) :
    Outcome.Ends (blob.SymbolInside mem k s) (fun r => r.isSome = true ↔ blob.IsKmain mem k s)
      (matchSymbol blob mem ⟨(blob.shdr mem k).shOffset, (blob.shdr mem k).shEntsize,
        (blob.strtab mem k).shOffset, (blob.strtab mem k).shSize⟩ s) := by
  unfold matchSymbol
  refine (read_ends hspace (by decide) mem (blob.symbol mem k s)).bind (fun h => h.1) ?_
  rintro _ hsymIn rfl
  -- a name that is not compared
  have hskip (hnot : ¬ blob.Compared mem k s) : blob.SymbolInside mem k s ∧
      ((none : Option (BitVec 64)).isSome = true ↔ blob.IsKmain mem k s) :=
    ⟨⟨hsymIn, fun h => absurd h hnot, fun h => absurd h.1 hnot⟩,
      iff_of_false (by decide) fun h => hnot h.1⟩
  split
  case isTrue hle =>
    have hnot : ¬ blob.Compared mem k s := fun h => BitVec.not_lt.mpr hle h.1
    exact .value _ (hskip hnot).1 (hskip hnot).2
  rename_i hlt
  show Outcome.Ends _ _ (gnuosStrEqual blob mem (blob.name mem k s) kmainName >>= _)
  unfold gnuosStrEqual
  split
  case isTrue hnull =>
    have hnot : ¬ blob.Compared mem k s := fun h => h.2 hnull
    exact .value _ (hskip hnot).1 (hskip hnot).2
  rename_i hnull
  have hcompared : blob.Compared mem k s := ⟨BitVec.not_le.mp hlt, hnull⟩
  refine (strEqualLoop_ends hspace mem _ (by decide)).bind (fun h => h.2.1 hcompared) ?_
  intro equal hnameIn hequal
  have hkmain : equal = true ↔ blob.IsKmain mem k s :=
    hequal.trans ⟨fun h => ⟨hcompared, h⟩, fun h => h.2⟩
  cases equal with
  | false =>
    have hnot : ¬ blob.IsKmain mem k s := fun h => Bool.noConfusion (hkmain.mpr h)
    exact .value _ ⟨hsymIn, fun _ => hnameIn, fun h => absurd h hnot⟩
      (iff_of_false (by decide) hnot)
  | true =>
    have his := hkmain.mp rfl
    refine (read_ends hspace (by decide) mem (blob.symbol mem k s + 8#64)).bind
      (fun h => (h.2.2 his).part (k := 8) (by decide)) ?_
    intro value hvalueIn _
    exact .value _ ⟨hsymIn, fun _ => hnameIn, fun _ =>
      hsymIn.join hspace (k := 8) hvalueIn (by decide)⟩ (iff_of_true rfl his)

theorem searchSection_ends (hspace : blob.InSpace) (mem : Memory) (k : ℕ) :
    Outcome.Ends (blob.SectionInside mem k) (fun r => r.isSome = true ↔ blob.HasKmain mem k)
      (searchSection blob mem (blob.ehdr mem) k) := by
  have hfield (n : ℕ) : (blob.ehdr mem).shdr k + 4#64 + BitVec.ofNat 64 n =
      (blob.ehdr mem).shdr k + BitVec.ofNat 64 (4 + n) := Memory.addr_add _ 4 n
  unfold searchSection
  refine (read_ends hspace (by decide) mem _).bind (fun h => h.1) ?_
  rintro _ htypeIn rfl
  -- a section that fails a check
  have hskip (hheader : (blob.shdr mem k).shType = elf64ShtSymtab →
      blob.Holds ((blob.ehdr mem).shdr k + 4#64) 60) (hnot : ¬ blob.Checked mem k) :
      Outcome.Ends (blob.SectionInside mem k) (fun r => r.isSome = true ↔ blob.HasKmain mem k)
        (.value (none : Option (BitVec 64))) :=
    .value _ ⟨htypeIn, hheader, fun h => absurd h hnot, fun h => absurd h.1 hnot⟩
      (iff_of_false (by decide) fun h => hnot h.1.1)
  split
  case isTrue htype => exact hskip (fun h => absurd h htype) fun h => htype h.1
  rename_i htype
  have htype : (blob.shdr mem k).shType = elf64ShtSymtab := not_not.mp htype
  refine (read_ends hspace (by decide) mem _).bind
    (fun h => hfield 52 ▸ (h.2.1 htype).part (by decide)) ?_
  rintro _ hentsizeIn rfl
  have hheader : blob.Holds ((blob.ehdr mem).shdr k + 4#64) 60 :=
    htypeIn.join hspace (k := 52) (by rw [hfield]; exact hentsizeIn) (by decide)
  split
  case isTrue hentsize => exact hskip (fun _ => hheader) fun h => h.2.1 hentsize
  rename_i hentsize
  refine (read_ends hspace (by decide) mem _).bind
    (fun _ => hfield 36 ▸ hheader.part (by decide)) ?_
  rintro _ - rfl
  split
  case isTrue hlink => exact hskip (fun _ => hheader) fun h => h.2.2.1 hlink
  rename_i hlink
  refine (read_ends hspace (by decide) mem _).bind
    (fun _ => hfield 20 ▸ hheader.part (by decide)) ?_
  rintro _ - rfl
  refine (read_ends hspace (by decide) mem _).bind
    (fun _ => hfield 28 ▸ hheader.part (by decide)) ?_
  rintro _ - rfl
  split
  case isTrue hsymbols => exact hskip (fun _ => hheader) fun h => h.2.2.2 hsymbols
  rename_i hsymbols
  have hchecked : blob.Checked mem k := ⟨htype, hentsize, hlink, hsymbols⟩
  -- the header that the link refers to
  have hlinked : (blob.ehdr mem).shdr (blob.shdr mem k).shLink.toNat + 24#64 + BitVec.ofNat 64 8 =
      (blob.ehdr mem).shdr (blob.shdr mem k).shLink.toNat + 32#64 := Memory.addr_add _ 24 8
  show Outcome.Ends _ _ (searchSymbols blob mem
    ((blob.ehdr mem).shdr (blob.shdr mem k).shLink.toNat) (blob.shdr mem k).shOffset
    (blob.shdr mem k).shSize (blob.shdr mem k).shEntsize)
  unfold searchSymbols
  refine (read_ends hspace (by decide) mem _).bind
    (fun h => Nat.le_trans (Nat.add_le_add_left (by decide) _) (h.2.2.1 hchecked)) ?_
  rintro _ hoffsetIn rfl
  refine (read_ends hspace (by decide) mem _).bind
    (fun h => hlinked ▸ (h.2.2.1 hchecked).part (by decide)) ?_
  rintro _ hsizeIn rfl
  have hstrtab : blob.Holds ((blob.ehdr mem).shdr (blob.shdr mem k).shLink.toNat + 24#64) 16 :=
    hoffsetIn.join hspace (k := 8) (by rw [hlinked]; exact hsizeIn) (by decide)
  split
  case isTrue hstrings =>
    have hnot : ¬ blob.Searched mem k := fun h => h.2 hstrings
    exact .value _ ⟨htypeIn, fun _ => hheader, fun _ => hstrtab, fun h => absurd h hnot⟩
      (iff_of_false (by decide) fun h => hnot h.1)
  rename_i hstrings
  have hsearched : blob.Searched mem k := ⟨hchecked, hstrings⟩
  refine (Outcome.Ends.search (matchSymbol_ends hspace mem k) (blob.symCount mem k)).congr
    ⟨fun h => ⟨htypeIn, fun _ => hheader, fun _ => hstrtab, fun _ => h⟩,
      fun h => h.2.2.2 hsearched⟩ ?_
  intro r hr
  exact hr.trans ⟨fun h => ⟨hsearched, h⟩, fun h => h.2⟩

/-- The search reads inside the blob exactly if the sections up to `kmain` do. -/
theorem find_defined_iff (hspace : blob.InSpace) (mem : Memory) :
    (gnuosFindKmainSymbol blob mem).Defined ↔
      (blob.HasSections mem → blob.SectionsInside mem) := by
  unfold gnuosFindKmainSymbol
  simp only
  split
  case isTrue habsent => exact iff_of_true ⟨_, rfl⟩ fun h => absurd habsent h.1
  rename_i hpresent
  split
  case isTrue hover => exact iff_of_true ⟨_, rfl⟩ fun h => absurd hover h.2
  rename_i hfits
  have hsearch : Outcome.Ends (blob.SectionsInside mem) (fun _ => True)
      (Outcome.search (searchSection blob mem (blob.ehdr mem)) (blob.ehdr mem).eShnum.toNat >>=
        fun r => .value (r.getD 0#64)) :=
    (Outcome.Ends.search (searchSection_ends hspace mem) _).bind id
      fun r hgood _ => .value _ hgood trivial
  exact hsearch.defined_iff.trans ⟨fun h _ => h, fun h => h ⟨hpresent, hfits⟩⟩

/-! ## The loader -/

/-- What the checks of `efi_main` establish. -/
theorem efiMainRejects_eq_none (h : efiMainRejects blob mem = none) :
    56 ≤ (blob.ehdr mem).ePhentsize.toNat ∧ 0 < (blob.ehdr mem).ePhnum.toNat := by
  unfold efiMainRejects at h
  split at h
  · cases h
  split at h
  · cases h
  split at h
  · cases h
  rename_i _ _ htable
  rw [not_or] at htable
  refine ⟨Nat.le_of_not_lt htable.1, ?_⟩
  rw [Nat.pos_iff_ne_zero]
  intro hzero
  exact htable.2 (eq_of_toNat_eq hzero)

end

/-! ## Two blobs -/

/-- A blob at 1 MiB with one segment, which is loaded at 2 MiB, a symbol table of one symbol and a
string table with its name. -/
def sampleKernel : KernelBlob := ⟨0x100000#64, 280#64⟩

def sampleKernelMemory : Memory := Memory.ofWords 0x100000#64
  [0x464C457F#64, 0#64, 0#64, 0#64, 64#64, 120#64, 0x38000000000000#64, 0x200400001#64,
    1#64, 0#64, 0#64, 0x200000#64, 8#64, 16#64, 0#64,
    0x200000000#64, 0#64, 0#64, 248#64, 24#64, 1#64, 0#64, 24#64,
    0x300000000#64, 0#64, 0#64, 272#64, 6#64, 0#64, 0#64, 0#64,
    0#64, 0x200000#64, 0#64, 0x6E69616D6B#64]

theorem sampleKernel_apart :
    sampleKernel.LoadsApart (some fun _ _ _ => true) sampleKernelMemory := by
  have hphnum : (sampleKernel.ehdr sampleKernelMemory).ePhnum.toNat = 1 := by decide +kernel
  have hpaddr : (sampleKernel.header sampleKernelMemory 0).pPaddr = 0x200000#64 := by decide +kernel
  have hmemsz : (sampleKernel.header sampleKernelMemory 0).pMemsz.toNat = 16 := by decide +kernel
  intro i hi _ _ k x hk hx
  obtain rfl : i = 0 := by omega
  have hsize : x < 280 := hx
  have hstart : sampleKernel.start.toNat = 0x100000 := rfl
  have hdestination : (0x200000#64).toNat = 0x200000 := rfl
  rw [hpaddr, Ne, ← toNat_inj, Memory.toNat_addr (by omega), Memory.toNat_addr (by omega)]
  omega

theorem sampleKernel_segments :
    sampleKernel.SegmentsSound (some fun _ _ _ => true) sampleKernelMemory := by
  have hphnum : (sampleKernel.ehdr sampleKernelMemory).ePhnum.toNat = 1 := by decide +kernel
  refine fun _ => ⟨by decide +kernel, ?_⟩
  intro i hi _ _
  obtain rfl : i = 0 := by omega
  decide +kernel

theorem sampleKernel_sections : sampleKernel.SectionsInside sampleKernelMemory := by
  have hchecked : sampleKernel.Searched sampleKernelMemory 0 := by
    unfold KernelBlob.Searched KernelBlob.Checked
    decide +kernel
  have hkmain : sampleKernel.IsKmain sampleKernelMemory 0 0 := by
    unfold KernelBlob.IsKmain KernelBlob.Compared
    decide +kernel
  have hcount : sampleKernel.symCount sampleKernelMemory 0 = 1 := by decide +kernel
  intro k _ hreached
  cases k with
  | zero =>
    refine ⟨by decide +kernel, fun _ => by decide +kernel, fun _ => by decide +kernel, ?_⟩
    intro _ s hs _
    obtain rfl : s = 0 := by omega
    exact ⟨by decide +kernel, fun _ => by decide +kernel, fun _ => by decide +kernel⟩
  | succ k =>
    -- the search has returned
    exact absurd ⟨hchecked, 0, by omega, hkmain⟩ (hreached 0 (Nat.succ_pos k))

/-- A blob with one segment whose end, `p_offset + p_filesz`, is 0 in 64 bits. -/
def wrappedKernel : KernelBlob := ⟨0x100000#64, 120#64⟩

def wrappedKernelMemory : Memory := Memory.ofWords 0x100000#64
  [0x464C457F#64, 0#64, 0#64, 0#64, 64#64, 0#64, 0x38000000000000#64, 1#64,
    1#64, 0xFFFFFFFFFFFFFFFF#64, 0#64, 0x200000#64, 1#64, 1#64, 0#64]

end GnuOS.Boot
