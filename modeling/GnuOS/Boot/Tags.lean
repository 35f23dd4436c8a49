import GnuOS.Boot.Bounds
import GnuOS.Lib.Bytes
import Mathlib.Data.List.MinMax

/-!
# The boot information as a list of tags

What the boot information says, without addresses: a list of tags, each with a type and the bytes
behind its header.  A block of memory is the serialisation of such a list if the tags stand in it
one after another, each padded to a multiple of 8, up to an end tag or the end of the block.

The answers to the three questions of the kernel are functions of the list.
-/

namespace GnuOS.Boot

open GnuOS.Lib List

/-! ## Tags -/

/-- A tag other than the one that ends the list. -/
structure Tag where
  type : BitVec 32
  payload : List (BitVec 8)
  notEnd : type ≠ multibootTagTypeEnd
  size_le : 8 + payload.length ≤ 0xFFFFFFF8

theorem acpiOld_ne_end : multibootTagTypeAcpiOld ≠ multibootTagTypeEnd := by decide

/-- An entry of a memory map. -/
structure MmapEntry where
  addr : BitVec 64
  len : BitVec 64
  type : BitVec 32
  deriving DecidableEq, Repr

/-- The entry is an available region with a length. -/
def MmapEntry.Candidate (e : MmapEntry) : Prop :=
  e.type = multibootMemoryAvailable ∧ e.len ≠ 0#64

instance (e : MmapEntry) : Decidable e.Candidate := inferInstanceAs (Decidable (_ ∧ _))

def MmapEntry.region (e : MmapEntry) : Available := ⟨e.addr, e.len⟩

namespace Tag

def size (t : Tag) : ℕ := 8 + t.payload.length

def paddedSize (t : Tag) : ℕ := (t.size + 7) / 8 * 8

/-- The number in the `n` bytes at position `k` of the payload. -/
def field (t : Tag) (k n : ℕ) : ℕ := fieldOf t.payload k n

def IsMmap (t : Tag) : Prop := t.type = multibootTagTypeMmap ∧ 16 ≤ t.size

def IsFramebuffer (t : Tag) : Prop := t.type = multibootTagTypeFramebuffer ∧ 32 ≤ t.size

/-- A root pointer of version 1. -/
def IsOldRsdp (t : Tag) : Prop := t.type = multibootTagTypeAcpiOld ∧ 28 ≤ t.size

/-- A root pointer of a later version. -/
def IsNewRsdp (t : Tag) : Prop := t.type = multibootTagTypeAcpiNew ∧ 44 ≤ t.size

instance (t : Tag) : Decidable t.IsMmap := inferInstanceAs (Decidable (_ ∧ _))
instance (t : Tag) : Decidable t.IsFramebuffer := inferInstanceAs (Decidable (_ ∧ _))
instance (t : Tag) : Decidable t.IsOldRsdp := inferInstanceAs (Decidable (_ ∧ _))
instance (t : Tag) : Decidable t.IsNewRsdp := inferInstanceAs (Decidable (_ ∧ _))

/-- The field `entry_size` of a memory map. -/
def entrySize (t : Tag) : ℕ := t.field 0 4

def entryCount (t : Tag) : ℕ := (t.size - 16) / t.entrySize

/-- The entry at position `k` of the payload. -/
def entryAt (t : Tag) (k : ℕ) : MmapEntry :=
  ⟨BitVec.ofNat 64 (t.field k 8), BitVec.ofNat 64 (t.field (k + 8) 8),
    BitVec.ofNat 32 (t.field (k + 16) 4)⟩

/-- The whole entries of a memory map; other tags have none. -/
def entries (t : Tag) : List MmapEntry :=
  if t.IsMmap then (range t.entryCount).map fun i => t.entryAt (8 + i * t.entrySize) else []

/-- The fields of a framebuffer, without its colours. -/
def framebufferInfo (t : Tag) : FramebufferInfo where
  address := BitVec.ofNat 64 (t.field 0 8)
  pitch := BitVec.ofNat 32 (t.field 8 4)
  width := BitVec.ofNat 32 (t.field 12 4)
  height := BitVec.ofNat 32 (t.field 16 4)
  bpp := BitVec.ofNat 8 (t.field 20 1)
  type := BitVec.ofNat 8 (t.field 21 1)
  redFieldPosition := 0#8
  redMaskSize := 0#8
  greenFieldPosition := 0#8
  greenMaskSize := 0#8
  blueFieldPosition := 0#8
  blueMaskSize := 0#8

def colours (t : Tag) : FramebufferInfo :=
  { t.framebufferInfo with
    redFieldPosition := BitVec.ofNat 8 (t.field 24 1)
    redMaskSize := BitVec.ofNat 8 (t.field 25 1)
    greenFieldPosition := BitVec.ofNat 8 (t.field 26 1)
    greenMaskSize := BitVec.ofNat 8 (t.field 27 1)
    blueFieldPosition := BitVec.ofNat 8 (t.field 28 1)
    blueMaskSize := BitVec.ofNat 8 (t.field 29 1) }

/-- What a framebuffer tag says; nothing if it should have colours and is too short for them. -/
def framebuffer (t : Tag) : Option FramebufferInfo :=
  if t.framebufferInfo.type = multibootFramebufferTypeRgb then
    if t.size < 38 then none else some t.colours
  else some t.framebufferInfo

/-- The revision in a root pointer. -/
def revision (t : Tag) : BitVec 8 := BitVec.ofNat 8 (t.field 15 1)

end Tag

/-! ## Answers -/

/-- The tags with their offsets, if the first one is at `o`. -/
def positions : ℕ → List Tag → List (ℕ × Tag)
  | _, [] => []
  | o, t :: tags => (o, t) :: positions (o + t.paddedSize) tags

/-- The available regions of all memory maps that have a length. -/
def availableEntries (tags : List Tag) : List MmapEntry :=
  (tags.flatMap Tag.entries).filter fun e => e.Candidate

/-- The first of the longest available regions. -/
def largestAvailable (tags : List Tag) : Option Available :=
  ((availableEntries tags).argmax fun e => e.len.toNat).map MmapEntry.region

/-- The fields of the first framebuffer. -/
def firstFramebuffer (tags : List Tag) : Option FramebufferInfo :=
  (tags.find? fun t => t.IsFramebuffer).bind Tag.framebuffer

/-- The last root pointer of a later version, or else the last one of version 1, with its offset. -/
def rsdpTag (tags : List Tag) : Option (ℕ × Tag) :=
  ((positions 8 tags).filter fun p => p.2.IsNewRsdp).getLast?.or
    ((positions 8 tags).filter fun p => p.2.IsOldRsdp).getLast?

/-- The address of the payload of that tag, and the revision; 0 for version 1. -/
def acpiRsdp (addr : BitVec 64) (tags : List Tag) : Option (BitVec 64 × BitVec 8) :=
  (rsdpTag tags).map fun p =>
    (addr + BitVec.ofNat 64 (p.1 + 8), if p.2.IsNewRsdp then p.2.revision else 0#8)

/-! ## Serialisation -/

/-- The tag stands in the block at offset `o`. -/
structure TagBytes (b : BootInfo) (o : ℕ) (t : Tag) : Prop where
  type : b.tagType o = t.type.toNat
  size : b.tagSize o = t.size
  payload : b.memory.BytesAt (b.addrAt (o + 8)) t.payload

/-- The tags stand in the block from offset `o` on.  What is behind an end tag does not matter. -/
inductive TagsFrom (b : BootInfo) : ℕ → List Tag → Prop
  | blockEnd {o : ℕ} : o ≤ b.totalSize → b.totalSize < o + 8 → TagsFrom b o []
  | endTag {o : ℕ} : b.tagType o = 0 → 8 ≤ b.tagSize o → b.tagSize o ≤ 0xFFFFFFF8 →
      o + b.paddedSize o ≤ b.totalSize → TagsFrom b o []
  | tag {o : ℕ} {t : Tag} {tags : List Tag} : TagBytes b o t →
      o + t.paddedSize ≤ b.totalSize → TagsFrom b (o + t.paddedSize) tags →
      TagsFrom b o (t :: tags)

/-- The block is the serialisation of the tags.  Entries of memory maps have at least the fields
that are known. -/
structure Serialises (b : BootInfo) (tags : List Tag) : Prop where
  inSpace : b.InSpace
  layout : TagsFrom b 8 tags
  entries : ∀ t ∈ tags, t.IsMmap → 24 ≤ t.entrySize

section

variable {b : BootInfo} {o k n : ℕ} {t : Tag} {tags : List Tag} {goesOn : ℕ → Prop}

theorem Tag.size_ge (t : Tag) : 8 ≤ t.size := Nat.le_add_right 8 _

theorem Tag.size_le_paddedSize (t : Tag) : t.size ≤ t.paddedSize := by
  unfold paddedSize
  omega

section

variable (h : TagBytes b o t)

include h

theorem TagBytes.paddedSize_eq : b.paddedSize o = t.paddedSize := by
  rw [BootInfo.paddedSize, h.size, Tag.paddedSize]

/-- A field of the tag. -/
theorem TagBytes.load (hk : 8 + k + n ≤ t.size) :
    b.memory.load (b.addrAt (o + 8 + k)) n = t.field k n := by
  rw [← b.addrAt_add]
  exact h.payload.load (by unfold Tag.size at hk; omega)

theorem TagBytes.passed (hfits : o + t.paddedSize ≤ b.totalSize) :
    b.Passed o where
  header := by
    have hge := t.size_ge
    have hle := t.size_le_paddedSize
    omega
  size_ge := by
    rw [h.size]
    exact t.size_ge
  size_le := by
    rw [h.size]
    exact t.size_le
  fits := by
    rw [h.paddedSize_eq]
    exact hfits
  notEnd := by
    rw [h.type]
    exact fun hzero => t.notEnd (BitVec.eq_of_toNat_eq hzero)

theorem TagBytes.type_iff (type : BitVec 32) :
    b.tagType o = type.toNat ↔ t.type = type := by
  rw [h.type]
  exact BitVec.toNat_inj

theorem TagBytes.isMmap_iff : b.IsMmap o ↔ t.IsMmap := by
  rw [BootInfo.IsMmap, Tag.IsMmap, h.size]
  exact and_congr_left fun _ => h.type_iff multibootTagTypeMmap

theorem TagBytes.isFramebuffer_iff : b.IsFramebuffer o ↔ t.IsFramebuffer := by
  rw [BootInfo.IsFramebuffer, Tag.IsFramebuffer, h.size]
  exact and_congr_left fun _ => h.type_iff multibootTagTypeFramebuffer

theorem TagBytes.entrySize_eq (hmmap : t.IsMmap) :
    b.entrySize o = t.entrySize := by
  have hsize := hmmap.2
  show b.memory.load (b.addrAt (o + 8 + 0)) 4 = t.field 0 4
  exact h.load (by omega)

end

theorem TagsFrom.le (h : TagsFrom b o tags) : o ≤ b.totalSize := by
  cases h with
  | blockEnd hle _ => exact hle
  | endTag _ _ _ hfits => exact le_trans (Nat.le_add_right _ _) hfits
  | tag _ hfits _ => exact le_trans (Nat.le_add_right _ _) hfits

/-- A tag that a walk passes is one of the list. -/
theorem TagsFrom.of_passed (h : TagsFrom b o tags) (hpassed : b.Passed o) :
    ∃ t rest, tags = t :: rest ∧ TagBytes b o t ∧ TagsFrom b (o + b.paddedSize o) rest := by
  cases h with
  | blockEnd _ hlt => exact absurd hpassed.header (Nat.not_le.mpr hlt)
  | endTag htype _ _ _ => exact absurd htype hpassed.notEnd
  | tag ht _ hrest =>
    rw [← ht.paddedSize_eq] at hrest
    exact ⟨_, _, rfl, ht, hrest⟩

/-- The tags of the list are in the block. -/
theorem TagsFrom.of_mem_positions (h : TagsFrom b o tags) {p : ℕ × Tag}
    (hp : p ∈ positions o tags) :
    p.2 ∈ tags ∧ TagBytes b p.1 p.2 ∧ p.1 + p.2.paddedSize ≤ b.totalSize := by
  induction h with
  | blockEnd _ _ => exact absurd hp not_mem_nil
  | endTag _ _ _ _ => exact absurd hp not_mem_nil
  | tag ht hfits _ ih =>
    rcases mem_cons.mp hp with rfl | hp
    · exact ⟨mem_cons_self, ht, hfits⟩
    · obtain ⟨hmem, hrest⟩ := ih hp
      exact ⟨mem_cons_of_mem _ hmem, hrest⟩

/-- A walk stays on the list. -/
theorem Serialises.of_tagAt (h : Serialises b tags) (ho : b.TagAt goesOn o) :
    ∃ rest, TagsFrom b o rest ∧ ∀ t ∈ rest, t ∈ tags := by
  induction ho with
  | first _ _ => exact ⟨tags, h.layout, fun _ ht => ht⟩
  | next o _ hpassed _ ih =>
    obtain ⟨rest, hrest, hmem⟩ := ih
    obtain ⟨t, rest, rfl, _, hnext⟩ := hrest.of_passed hpassed
    exact ⟨rest, hnext, fun t ht => hmem t (mem_cons_of_mem _ ht)⟩

end

/-! ## Walks over the list -/

section

variable {σ ρ : Type} {b : BootInfo} {o : ℕ} {tags : List Tag} {goesOn : ℕ → Prop}
  {finish reject : σ → ρ}

/-- A walk that does `step` with each tag, given its offset. -/
def runTags (step : ℕ → Tag → σ → Flow σ ρ) (finish : σ → ρ) : ℕ → List Tag → σ → ρ
  | _, [], s => finish s
  | o, t :: tags, s =>
    match step o t s with
    | .next s => runTags step finish (o + t.paddedSize) tags s
    | .ret r => r

/-- Without a return in between, a walk is a fold. -/
theorem runTags_next {step : ℕ → Tag → σ → σ} (o : ℕ) (tags : List Tag) (s : σ) :
    runTags (fun o t s => .next (step o t s)) finish o tags s =
      finish ((positions o tags).foldl (fun s p => step p.1 p.2 s) s) := by
  induction tags generalizing o s with
  | nil => rfl
  | cons t tags ih => exact ih (o + t.paddedSize) (step o t s)

/-- The loop over a block that is the serialisation of a list walks over the list, if the body of
the loop does `step` with the tags that it comes to. -/
theorem TagsFrom.walkFrom_eq {body : TagBody σ ρ} {step : ℕ → Tag → σ → Flow σ ρ}
    (h : TagsFrom b o tags) (hsteady : Steady b) (ho : b.TagAt goesOn o)
    (hbody : ∀ o t s, t ∈ tags → b.TagAt goesOn o → b.Passed o → TagBytes b o t →
      b.onTag body o s = .value (step o t s) ∧ ∀ s', step o t s = .next s' → goesOn o)
    {fuel : ℕ} (hfuel : tags.length < fuel) (s : σ) :
    b.walkFrom body finish reject fuel o s = .value (runTags step finish o tags s) := by
  have hend := ho.end_lt
  obtain ⟨fuel, rfl⟩ : ∃ n, fuel = n + 1 := ⟨fuel - 1, by omega⟩
  -- induction along the list
  induction h generalizing fuel s with
  | blockEnd _ hlt =>
    exact walkFrom_stop (hsteady.loopTest _ ho.all hlt) hend hlt
  | @endTag o htype hge hle hfits =>
    rw [walkFrom_fits hend hge hle hfits, if_pos htype]
    rfl
  | @tag o t tags ht hfits _ ih =>
    have hpassed := ht.passed hfits
    obtain ⟨hvalue, hgoes⟩ := hbody o t s mem_cons_self ho hpassed ht
    rw [walkFrom_passed hend hpassed, hvalue, Outcome.value_bind, runTags]
    cases hstep : step o t s with
    | ret r => rfl
    | next s' =>
      have hat := BootInfo.TagAt.next o ho hpassed (hgoes s' hstep)
      rw [ht.paddedSize_eq] at hat ⊢
      rw [length_cons] at hfuel
      obtain ⟨fuel, rfl⟩ : ∃ n, fuel = n + 1 := ⟨fuel - 1, by omega⟩
      exact ih hat (fun o u s hu => hbody o u s (mem_cons_of_mem t hu)) s' fuel (by omega)

end

end GnuOS.Boot
