import GnuOS.Boot.Queries

/-!
# Validation of the ACPI root pointer

A model of the first half of `acpi_init` in `kernel/arch/x86_64/acpi/acpi.c`: the root pointer is
looked up in the boot information and checked.  The lookup has compared the size of the tag with the
size that its type requires; how many bytes are read is decided by the revision and the length in
the root pointer itself.

The bytes of the root pointer are read through a region, the payload of the tag.
-/

namespace GnuOS.Acpi

open GnuOS.Lib GnuOS.Boot List
open BitVec hiding not_or

/-! ## The source -/

/-- The string `RSD PTR `. -/
def acpiSigRsdp : List (BitVec 8) :=
  [0x52#8, 0x53#8, 0x44#8, 0x20#8, 0x50#8, 0x54#8, 0x52#8, 0x20#8]

/-- `sizeof(acpi_rsdp_v2_t)` -/
def acpiRsdpV2Size : BitVec 32 := 36#32

/-- The fields of `acpi_info_t` that are set from the root pointer. -/
structure AcpiInfo where
  revision : BitVec 8
  rsdpAddress : BitVec 64
  rsdpLength : BitVec 32
  rsdtAddress : BitVec 64
  xsdtAddress : BitVec 64
  deriving DecidableEq, Repr

def acpiSigMatch (r : Region) (mem : Memory) : BitVec 64 → List (BitVec 8) → Outcome Bool
  | _, [] => .value true
  | a, c :: signature => do
    let byte ← r.read mem a 1
    if BitVec.ofNat 8 byte ≠ c then .value false
    else acpiSigMatch r mem (a + 1#64) signature

/-- The loop of `acpi_checksum_ok`, with `n` rounds left. -/
def checksumLoop (r : Region) (mem : Memory) : ℕ → BitVec 64 → BitVec 8 → Outcome (BitVec 8)
  | 0, _, sum => .value sum
  | n + 1, a, sum => do
    let byte ← r.read mem a 1
    checksumLoop r mem n (a + 1#64) (sum + BitVec.ofNat 8 byte)

def acpiChecksumOk (r : Region) (mem : Memory) (base : BitVec 64) (length : BitVec 32) :
    Outcome Bool :=
  if base = 0#64 ∨ length = 0#32 then .value false
  else do
    let sum ← checksumLoop r mem length.toNat base 0#8
    .value (sum = 0#8)

/-- The fields that only a root pointer of a later version has. -/
def acpiInitRsdpV2 (r : Region) (mem : Memory) (rsdpAddr : BitVec 64) (info : AcpiInfo) :
    Outcome (Except String AcpiInfo) := do
  let length ← r.read mem (rsdpAddr + 20#64) 4
  if BitVec.ofNat 32 length < acpiRsdpV2Size then
    .value (.error "GNU OS: ACPI RSDP v2 length invalid.\n")
  else do
    let ok ← acpiChecksumOk r mem rsdpAddr (BitVec.ofNat 32 length)
    if !ok then .value (.error "GNU OS: ACPI RSDP v2 extended checksum invalid.\n")
    else do
      let xsdtAddress ← r.read mem (rsdpAddr + 24#64) 8
      .value (.ok { info with
        xsdtAddress := BitVec.ofNat 64 xsdtAddress
        rsdpLength := BitVec.ofNat 32 length })

/-- What `acpi_init` does with the root pointer; an error is the message before it returns 0. -/
def acpiInitRsdp (r : Region) (mem : Memory) (rsdpAddr : BitVec 64) :
    Outcome (Except String AcpiInfo) := do
  let signatureOk ← acpiSigMatch r mem rsdpAddr acpiSigRsdp
  if !signatureOk then .value (.error "GNU OS: ACPI RSDP signature mismatch.\n")
  else do
    let checksumOk ← acpiChecksumOk r mem rsdpAddr 20#32
    if !checksumOk then .value (.error "GNU OS: ACPI RSDP checksum invalid.\n")
    else do
      let revision ← r.read mem (rsdpAddr + 15#64) 1
      let rsdtAddress ← r.read mem (rsdpAddr + 16#64) 4
      let info : AcpiInfo :=
        ⟨BitVec.ofNat 8 revision, rsdpAddr, 20#32, BitVec.ofNat 64 rsdtAddress, 0#64⟩
      if 2#8 ≤ BitVec.ofNat 8 revision then acpiInitRsdpV2 r mem rsdpAddr info
      else .value (.ok info)

/-- `acpi_init` up to the root table; `r` is where it may read the root pointer. -/
def acpiInit (b : BootInfo) (r : Region) (fuel : ℕ) : Outcome (Except String AcpiInfo) := do
  let found ← multiboot2FindAcpiRsdp b true fuel
  match found with
  | none => .value (.error "GNU OS: ACPI RSDP tag not found in multiboot2 info.\n")
  | some (rsdpAddr, _) => acpiInitRsdp r b.memory rsdpAddr

/-! ## Reads of the payload -/

/-- The region has these bytes, and is not at the null pointer. -/
structure PayloadAt (mem : Memory) (r : Region) (payload : List (BitVec 8)) : Prop where
  nonnull : r.base ≠ 0#64
  size : r.size = payload.length
  inSpace : r.base.toNat + r.size ≤ 2 ^ 64
  bytes : mem.BytesAt r.base payload

/-- The sum of the bytes, as the source computes it. -/
def byteSum (bytes : List (BitVec 8)) : BitVec 8 := bytes.foldl (· + ·) 0#8

section

variable {mem : Memory} {r : Region} {payload : List (BitVec 8)} {k n : ℕ}

section

variable (h : PayloadAt mem r payload)

include h

theorem PayloadAt.read (hn : 0 < n) (hk : k + n ≤ payload.length) :
    r.read mem (r.base + BitVec.ofNat 64 k) n = .value (fieldOf payload k n) := by
  rw [Region.read_of_inside h.inSpace hn (by rw [h.size]; exact hk), h.bytes.load hk]

/-- A word that is not all in the payload. -/
theorem PayloadAt.read_outside (hk : k ≤ payload.length) (hout : payload.length < k + n) :
    r.read mem (r.base + BitVec.ofNat 64 k) n = .outside := by
  have hspace := h.inSpace
  have hsize := h.size
  have hpos : r.base.toNat ≠ 0 := fun hzero => h.nonnull (eq_of_toNat_eq hzero)
  apply Region.read_of_outside
  rw [toNat_add, toNat_ofNat]
  omega

theorem PayloadAt.sigMatch {signature : List (BitVec 8)}
    (hk : k + signature.length ≤ payload.length) :
    acpiSigMatch r mem (r.base + BitVec.ofNat 64 k) signature =
      .value (signature.isPrefixOf (payload.drop k)) := by
  induction signature generalizing k with
  | nil => rw [acpiSigMatch, isPrefixOf_nil_left]
  | cons c signature ih =>
    rw [length_cons] at hk
    obtain ⟨d, hdrop, hfield⟩ := drop_eq_cons (show k < payload.length by omega)
    rw [acpiSigMatch, h.read Nat.one_pos (by omega), Outcome.value_bind, hfield,
      ofNat_toNat, setWidth_eq, hdrop, isPrefixOf_cons_cons,
      show r.base + BitVec.ofNat 64 k + 1#64 = r.base + BitVec.ofNat 64 (k + 1) from
        Memory.addr_add r.base k 1, ih (by omega)]
    by_cases hsame : d = c
    · rw [if_neg (not_not.mpr hsame), hsame, beq_self_eq_true, Bool.true_and]
    · rw [if_pos hsame, beq_eq_false_iff_ne.mpr (Ne.symm hsame), Bool.false_and]

theorem PayloadAt.checksumLoop_eq (hk : k + n ≤ payload.length) (sum : BitVec 8) :
    checksumLoop r mem n (r.base + BitVec.ofNat 64 k) sum =
      .value (((payload.drop k).take n).foldl (· + ·) sum) := by
  induction n generalizing k sum with
  | zero => rfl
  | succ n ih =>
    obtain ⟨d, hdrop, hfield⟩ := drop_eq_cons (show k < payload.length by omega)
    rw [checksumLoop, h.read Nat.one_pos (by omega), Outcome.value_bind, hfield,
      ofNat_toNat, setWidth_eq,
      show r.base + BitVec.ofNat 64 k + 1#64 = r.base + BitVec.ofNat 64 (k + 1) from
        Memory.addr_add r.base k 1, ih (by omega), hdrop, take_succ_cons, foldl_cons]

/-- A loop that goes on at the end of the payload. -/
theorem PayloadAt.checksumLoop_outside (hk : k ≤ payload.length) (hout : payload.length < k + n)
    (sum : BitVec 8) :
    checksumLoop r mem n (r.base + BitVec.ofNat 64 k) sum = .outside := by
  induction n generalizing k sum with
  | zero => omega
  | succ n ih =>
    rw [checksumLoop]
    by_cases hlast : k = payload.length
    · rw [h.read_outside hk (by omega), Outcome.outside_bind]
    · rw [h.read Nat.one_pos (by omega), Outcome.value_bind,
        show r.base + BitVec.ofNat 64 k + 1#64 = r.base + BitVec.ofNat 64 (k + 1) from
          Memory.addr_add r.base k 1]
      exact ih (by omega) (by omega) _

theorem PayloadAt.checksumOk {length : BitVec 32} (hne : length ≠ 0#32) :
    acpiChecksumOk r mem r.base length =
      if length.toNat ≤ payload.length then .value (byteSum (payload.take length.toNat) = 0#8)
      else .outside := by
  have hbase : r.base = r.base + BitVec.ofNat 64 0 := (BitVec.add_zero r.base).symm
  rw [acpiChecksumOk, if_neg (not_or.mpr ⟨h.nonnull, hne⟩)]
  by_cases hfits : length.toNat ≤ payload.length
  · rw [if_pos hfits, hbase, h.checksumLoop_eq (by omega), Outcome.value_bind, drop_zero]
    rfl
  · rw [if_neg hfits, hbase, h.checksumLoop_outside (Nat.zero_le _) (by omega),
      Outcome.outside_bind]

end

end

/-! ## Bounds -/

/-- What is read of a root pointer is in its payload: if the signature, the checksum and the
revision let the source go on, the payload has a length field, and as many bytes as it says unless
it says less than 36. -/
def RsdpFits (payload : List (BitVec 8)) : Prop :=
  acpiSigRsdp.isPrefixOf payload = true → byteSum (payload.take 20) = 0#8 →
    2 ≤ fieldOf payload 15 1 →
    24 ≤ payload.length ∧ (36 ≤ fieldOf payload 20 4 → fieldOf payload 20 4 ≤ payload.length)

section

variable {mem : Memory} {r : Region} {payload : List (BitVec 8)}

theorem PayloadAt.initRsdpV2 (h : PayloadAt mem r payload) (hlength : 20 ≤ payload.length)
    (info : AcpiInfo) :
    (∃ result, acpiInitRsdpV2 r mem r.base info = .value result) ↔
      24 ≤ payload.length ∧
        (36 ≤ fieldOf payload 20 4 → fieldOf payload 20 4 ≤ payload.length) := by
  unfold acpiInitRsdpV2
  by_cases hfield : 24 ≤ payload.length
  swap
  · rw [show r.base + 20#64 = r.base + BitVec.ofNat 64 20 from rfl,
      h.read_outside hlength (by omega), Outcome.outside_bind]
    exact iff_of_false (fun hvalue => by cases hvalue.choose_spec) fun hboth => hfield hboth.1
  have hread : r.read mem (r.base + 20#64) 4 = .value (fieldOf payload 20 4) :=
    h.read (by decide) hfield
  have hlt : fieldOf payload 20 4 < 2 ^ 32 := by
    rw [← h.bytes.load hfield]
    exact Memory.load_lt mem _ 4
  have htoNat : (BitVec.ofNat 32 (fieldOf payload 20 4)).toNat = fieldOf payload 20 4 := by
    rw [toNat_ofNat, Nat.mod_eq_of_lt hlt]
  rw [hread, Outcome.value_bind]
  by_cases hshort : fieldOf payload 20 4 < 36
  · have htest : BitVec.ofNat 32 (fieldOf payload 20 4) < acpiRsdpV2Size := by
      rw [lt_def, htoNat]
      exact hshort
    rw [if_pos htest]
    exact iff_of_true ⟨_, rfl⟩ ⟨hfield, fun hge => absurd hge (by omega)⟩
  have htest : ¬ BitVec.ofNat 32 (fieldOf payload 20 4) < acpiRsdpV2Size := by
    rw [lt_def, htoNat]
    exact hshort
  have hne : BitVec.ofNat 32 (fieldOf payload 20 4) ≠ 0#32 := by
    intro hzero
    rw [hzero] at htoNat
    rw [← htoNat] at hshort
    exact hshort (by decide)
  rw [if_neg htest, h.checksumOk hne, htoNat]
  by_cases hfits : fieldOf payload 20 4 ≤ payload.length
  · have hxsdt : r.read mem (r.base + 24#64) 8 = .value (fieldOf payload 24 8) :=
      h.read (by decide) (by omega)
    rw [if_pos hfits, Outcome.value_bind, hxsdt]
    refine iff_of_true ?_ ⟨hfield, fun _ => hfits⟩
    split
    · exact ⟨_, rfl⟩
    · exact ⟨_, rfl⟩
  · rw [if_neg hfits, Outcome.outside_bind]
    exact iff_of_false (fun hvalue => by cases hvalue.choose_spec)
      fun hboth => hfits (hboth.2 (by omega))

theorem PayloadAt.initRsdp (h : PayloadAt mem r payload) (hlength : 20 ≤ payload.length) :
    (∃ result, acpiInitRsdp r mem r.base = .value result) ↔ RsdpFits payload := by
  have hsignature : acpiSigMatch r mem r.base acpiSigRsdp =
      .value (acpiSigRsdp.isPrefixOf payload) := by
    have hmatch := h.sigMatch (k := 0) (show 0 + acpiSigRsdp.length ≤ payload.length from
      le_trans (by decide) hlength)
    rwa [BitVec.add_zero, drop_zero] at hmatch
  have hchecksum : acpiChecksumOk r mem r.base 20#32 =
      .value (byteSum (payload.take 20) = 0#8) := by
    rw [h.checksumOk (by decide)]
    exact if_pos hlength
  have hrevision : r.read mem (r.base + 15#64) 1 = .value (fieldOf payload 15 1) :=
    h.read (by decide) (by omega)
  have hrsdt : r.read mem (r.base + 16#64) 4 = .value (fieldOf payload 16 4) :=
    h.read (by decide) (by omega)
  have hlt : fieldOf payload 15 1 < 2 ^ 8 := by
    rw [← h.bytes.load (show 15 + 1 ≤ payload.length by omega)]
    exact Memory.load_lt mem _ 1
  have htest : 2#8 ≤ BitVec.ofNat 8 (fieldOf payload 15 1) ↔ 2 ≤ fieldOf payload 15 1 := by
    rw [le_def, toNat_ofNat, toNat_ofNat, Nat.mod_eq_of_lt hlt]
  unfold acpiInitRsdp RsdpFits
  rw [hsignature, Outcome.value_bind]
  by_cases hmatch : acpiSigRsdp.isPrefixOf payload = true
  swap
  · rw [Bool.not_eq_true] at hmatch
    rw [hmatch]
    exact iff_of_true ⟨_, rfl⟩ fun hfalse => by cases hfalse
  rw [hmatch, hchecksum, hrevision, hrsdt]
  simp only [Bool.not_true, Bool.false_eq_true, if_false, Outcome.value_bind, forall_const]
  by_cases hsum : byteSum (payload.take 20) = 0#8
  swap
  · simp only [hsum, decide_false, Bool.not_false, if_true, false_imp_iff, iff_true]
    exact ⟨_, rfl⟩
  simp only [hsum, decide_true, Bool.not_true, Bool.false_eq_true, if_false, forall_const]
  by_cases hnew : 2 ≤ fieldOf payload 15 1
  · rw [if_pos (htest.mpr hnew), h.initRsdpV2 hlength]
    exact ⟨fun hfits _ => hfits, fun hfits => hfits hnew⟩
  · rw [if_neg (fun hle => hnew (htest.mp hle))]
    exact iff_of_true ⟨_, rfl⟩ fun hge => absurd hge hnew

end

theorem payloadAt_of_mem {b : BootInfo} {tags : List Tag} (h : Serialises b tags) {p : ℕ × Tag}
    (hmem : p ∈ positions 8 tags) (hne : payloadAddr b.addr p ≠ 0#64) :
    PayloadAt b.memory ⟨payloadAddr b.addr p, p.2.payload.length⟩ p.2.payload := by
  obtain ⟨_, hbytes, hfits⟩ := h.layout.of_mem_positions hmem
  refine ⟨hne, rfl, ?_, hbytes.payload⟩
  have hspace : b.addr.toNat + b.totalSize ≤ 2 ^ 64 := h.inSpace
  have hpadded := p.2.size_le_paddedSize
  have hsize : p.2.size = 8 + p.2.payload.length := rfl
  show (payloadAddr b.addr p).toNat + p.2.payload.length ≤ 2 ^ 64
  by_cases hempty : p.2.payload.length = 0
  · rw [hempty]
    exact le_of_lt (payloadAddr b.addr p).isLt
  · have hnat : (payloadAddr b.addr p).toNat = b.addr.toNat + (p.1 + 8) :=
      Memory.toNat_addr (by omega)
    omega

/-- For every block that is the serialisation of a list of tags, and every root pointer that is
found in it: it is the payload of a tag, and `acpi_init` reads nothing else of it if and only if the
payload is as long as the revision and the length in it require. -/
theorem acpi_rsdp_inside_iff {b : BootInfo} {tags : List Tag} (h : Serialises b tags)
    {rsdpAddr : BitVec 64} {revision : BitVec 8}
    (hfound : Outcome.Returns (multiboot2FindAcpiRsdp b true) (some (rsdpAddr, revision))) :
    ∃ p, rsdpTag tags = some p ∧ rsdpAddr = payloadAddr b.addr p ∧
      ((∃ result, Outcome.Returns (acpiInit b ⟨rsdpAddr, p.2.payload.length⟩) result) ↔
        RsdpFits p.2.payload) := by
  obtain ⟨p, hp, rfl, hne⟩ := h.rsdpTag_of_returns hfound
  refine ⟨p, hp, rfl, ?_⟩
  obtain ⟨hmem, hkind⟩ := mem_of_rsdpTag hp
  have hlength : 20 ≤ p.2.payload.length := by
    have hsize : p.2.size = 8 + p.2.payload.length := rfl
    rcases hkind with hnew | hold
    · have hge := hnew.2
      omega
    · have hge := hold.2
      omega
  rw [← (payloadAt_of_mem h hmem hne).initRsdp hlength]
  obtain ⟨bound, hbound⟩ := hfound
  have hvalue (fuel : ℕ) (hfuel : bound ≤ fuel) :
      acpiInit b ⟨payloadAddr b.addr p, p.2.payload.length⟩ fuel =
        acpiInitRsdp ⟨payloadAddr b.addr p, p.2.payload.length⟩ b.memory
          (payloadAddr b.addr p) := by
    rw [acpiInit, hbound fuel hfuel]
    rfl
  constructor
  · rintro ⟨result, bound', hresult⟩
    refine ⟨result, ?_⟩
    rw [← hresult (bound + bound') (by omega)]
    exact (hvalue _ (by omega)).symm
  · rintro ⟨result, hresult⟩
    exact ⟨result, bound, fun fuel hfuel => (hvalue fuel hfuel).trans hresult⟩

/-! ## A short root pointer of a later version -/

/-- A root pointer of 20 bytes with this revision and the checksum for it. -/
def shortRsdp (revision checksum : BitVec 8) : Tag where
  type := multibootTagTypeAcpiOld
  payload := acpiSigRsdp ++ checksum :: (List.replicate 6 0#8 ++ revision :: List.replicate 4 0#8)
  notEnd := acpiOld_ne_end
  size_le := by simp [acpiSigRsdp]

theorem shortRsdp_paddedSize (revision checksum : BitVec 8) :
    (shortRsdp revision checksum).paddedSize = 32 := by
  simp [Tag.paddedSize, Tag.size, shortRsdp, acpiSigRsdp]

/-- A block at `0x9000` with this tag and the end tag. -/
def shortRsdpBlock (revision checksum : BitVec 8) : BootInfo where
  memory := Memory.ofWords 0x9000#64 [48#64, 0x1C0000000E#64, 0x2052545020445352#64,
    (revision.setWidth 64 <<< 56) ||| checksum.setWidth 64, 0#64, 0x800000000#64]
  addr := 0x9000#64

theorem serialises_shortRsdp {revision checksum : BitVec 8}
    (htotal : (shortRsdpBlock revision checksum).totalSize = 48)
    (htag : (shortRsdpBlock revision checksum).tagType 8 = 14 ∧
      (shortRsdpBlock revision checksum).tagSize 8 = 28 ∧
      (shortRsdpBlock revision checksum).memory.BytesAt
        ((shortRsdpBlock revision checksum).addrAt 16) (shortRsdp revision checksum).payload)
    (hend : (shortRsdpBlock revision checksum).tagType 40 = 0 ∧
      (shortRsdpBlock revision checksum).tagSize 40 = 8) :
    Serialises (shortRsdpBlock revision checksum) [shortRsdp revision checksum] where
  inSpace := by
    rw [BootInfo.InSpace, htotal]
    show (0x9000#64).toNat + 48 ≤ 2 ^ 64
    decide
  layout := by
    have hlast : TagsFrom (shortRsdpBlock revision checksum) 40 [] :=
      .endTag hend.1 (le_of_eq hend.2.symm) (by rw [hend.2]; decide)
        (by rw [BootInfo.paddedSize, htotal, hend.2])
    refine .tag ⟨htag.1, htag.2.1, htag.2.2⟩ ?_ ?_
    · rw [shortRsdp_paddedSize, htotal]
      decide
    · rw [shortRsdp_paddedSize]
      exact hlast
  entries t ht hmmap := by
    rw [mem_singleton.mp ht] at hmmap
    exact absurd hmmap.1 (by show multibootTagTypeAcpiOld ≠ multibootTagTypeMmap; decide)

theorem shortRsdp_found {revision checksum : BitVec 8}
    (h : Serialises (shortRsdpBlock revision checksum) [shortRsdp revision checksum])
    (htotal : (shortRsdpBlock revision checksum).totalSize = 48) :
    Outcome.Returns (multiboot2FindAcpiRsdp (shortRsdpBlock revision checksum) true)
      (some (0x9010#64, 0#8)) := by
  have hwalk : Walkable (shortRsdpBlock revision checksum) := by
    apply h.walkable
    rw [htotal]
    show (0x9000#64).toNat + 48 + 2 ^ 32 ≤ 2 ^ 64
    decide
  have hend : (0x9000#64).toNat + (shortRsdpBlock revision checksum).totalSize < 2 ^ 64 := by
    rw [htotal]
    decide
  exact h.rsdp_returns hend (show 0x9000#64 ≠ 0#64 by decide) hwalk.steady

/-- Of revision 0, the 20 bytes are all that is read. -/
theorem acpi_rsdp_inside_first_revision :
    Serialises (shortRsdpBlock 0#8 0xE1#8) [shortRsdp 0#8 0xE1#8] ∧
      ∃ result, Outcome.Returns (acpiInit (shortRsdpBlock 0#8 0xE1#8) ⟨0x9010#64, 20⟩) result := by
  have htotal : (shortRsdpBlock 0#8 0xE1#8).totalSize = 48 := by decide +kernel
  have h : Serialises (shortRsdpBlock 0#8 0xE1#8) [shortRsdp 0#8 0xE1#8] :=
    serialises_shortRsdp htotal (by decide +kernel) (by decide +kernel)
  obtain ⟨p, hp, _, hiff⟩ := acpi_rsdp_inside_iff h (shortRsdp_found h htotal)
  obtain rfl : (8, shortRsdp 0#8 0xE1#8) = p := Option.some_inj.mp hp
  refine ⟨h, hiff.mpr ?_⟩
  intro _ _ hrevision
  exact absurd hrevision (by decide)

/-- With revision 2 and a correct checksum, the length is read behind the 20 bytes. -/
theorem short_rsdp_read_outside :
    Serialises (shortRsdpBlock 2#8 0xDF#8) [shortRsdp 2#8 0xDF#8] ∧
      Outcome.Returns (multiboot2FindAcpiRsdp (shortRsdpBlock 2#8 0xDF#8) true)
        (some (0x9010#64, 0#8)) ∧
      rsdpTag [shortRsdp 2#8 0xDF#8] = some (8, shortRsdp 2#8 0xDF#8) ∧
      ∀ result, ¬ Outcome.Returns (acpiInit (shortRsdpBlock 2#8 0xDF#8)
        ⟨0x9010#64, (shortRsdp 2#8 0xDF#8).payload.length⟩) result := by
  have htotal : (shortRsdpBlock 2#8 0xDF#8).totalSize = 48 := by decide +kernel
  have h : Serialises (shortRsdpBlock 2#8 0xDF#8) [shortRsdp 2#8 0xDF#8] :=
    serialises_shortRsdp htotal (by decide +kernel) (by decide +kernel)
  have hfound := shortRsdp_found h htotal
  refine ⟨h, hfound, rfl, ?_⟩
  rintro result ⟨bound, hresult⟩
  obtain ⟨bound', hbound'⟩ := hfound
  have hvalue := hresult (bound + bound') (by omega)
  rw [acpiInit, hbound' (bound + bound') (by omega), Outcome.value_bind] at hvalue
  have hfits := ((payloadAt_of_mem h mem_cons_self (by decide)).initRsdp (by decide)).mp
    ⟨result, hvalue⟩
  exact absurd (hfits (by decide) (by decide) (by decide)).1 (by decide)

end GnuOS.Acpi
