import GnuOS.Lib.Bits

/-!
# `mmap` of the libc stub

A model of `mmap` in `userspace/libc/ldso/x86_64/libc_stub.c`; `ldso_bootstrap.c` holds the same
text.  Mappings are cut off a pool of 2 MiB one behind the other, and nothing is given back.

The length is rounded up to whole pages in 64 bits before it is compared with what is left of the
pool.  For a length above `2 ^ 64 - 4096` the rounded length is 0: the call succeeds and takes
nothing from the pool.  The regions of a run are apart exactly when there was no such call.
-/

namespace GnuOS.Libc

open GnuOS.Lib List
open BitVec hiding and_assoc

/-! ## The function -/

def gnuosMmanPoolSize : BitVec 64 := 0x200000#64
def mapFixed : BitVec 32 := 0x10#32
def gnuosPthreadEinval : BitVec 32 := 22#32
def enomem : BitVec 32 := 12#32

/-- The globals that `mmap` writes. -/
structure MmanState where
  mmapPoolNext : BitVec 64
  errnoValue : BitVec 32
  deriving DecidableEq, Repr

/-- `MAP_FAILED`, after storing the error number. -/
def gnuosFailPtr (s : MmanState) (error : BitVec 32) : Option (BitVec 64) × MmanState :=
  (none, { s with errnoValue := error })

def gnuosAlignUp (value alignment : BitVec 64) : BitVec 64 :=
  let mask := alignment - 1#64
  (value + mask) &&& ~~~mask

/-- The mapping, `none` for `MAP_FAILED`; `pool` is the address of `g_mmap_pool`.  The parameters
`prot`, `fd` and `offset` are not read. -/
def mmap (pool : BitVec 64) (s : MmanState) (addr length : BitVec 64) (flags : BitVec 32) :
    Option (BitVec 64) × MmanState :=
  if length = 0#64 then gnuosFailPtr s gnuosPthreadEinval
  else if flags &&& mapFixed ≠ 0#32 ∧ addr ≠ 0#64 then (some addr, s)
  else
    let alignedLength := gnuosAlignUp length 4096#64
    let next := s.mmapPoolNext
    if gnuosMmanPoolSize < next ∨ gnuosMmanPoolSize - next < alignedLength then
      gnuosFailPtr s enomem
    else (some (pool + next), { s with mmapPoolNext := next + alignedLength })

/-! ## Runs -/

structure MmapCall where
  addr : BitVec 64
  length : BitVec 64
  flags : BitVec 32
  deriving DecidableEq, Repr

def MmapCall.isFixed (c : MmapCall) : Bool := c.flags &&& mapFixed ≠ 0#32

/-- What a successful call was asked for and has returned. -/
structure Region where
  start : BitVec 64
  length : BitVec 64
  deriving DecidableEq, Repr

def Region.offset (pool : BitVec 64) (r : Region) : ℕ := (r.start - pool).toNat

/-- The globals, and the regions returned without `MAP_FIXED`, oldest first. -/
structure MmapSystem where
  mman : MmanState
  regions : List Region
  deriving DecidableEq, Repr

namespace MmapSystem

def start : MmapSystem := ⟨⟨0#64, 0#32⟩, []⟩

def step (pool : BitVec 64) (y : MmapSystem) (c : MmapCall) : MmapSystem :=
  match mmap pool y.mman c.addr c.length c.flags with
  | (none, s) => { y with mman := s }
  | (some mapped, s) =>
    { mman := s, regions := if c.isFixed then y.regions else y.regions ++ [⟨mapped, c.length⟩] }

def run (pool : BitVec 64) (y : MmapSystem) (calls : List MmapCall) : MmapSystem :=
  calls.foldl (step pool) y

end MmapSystem

/-- The regions start at whole pages of the pool, lie in the pool, and no two of them overlap. -/
structure RegionsApart (pool : BitVec 64) (regions : List Region) : Prop where
  aligned : ∀ r ∈ regions, r.offset pool % 4096 = 0
  inside : ∀ r ∈ regions, r.offset pool + r.length.toNat ≤ 0x200000
  disjoint : regions.Pairwise fun r r' => r.offset pool + r.length.toNat ≤ r'.offset pool ∨
    r'.offset pool + r'.length.toNat ≤ r.offset pool

/-! ## Lengths -/

/-- The length can be rounded up in 64 bits. -/
def Fits (length : BitVec 64) : Prop := length.toNat + 4096 ≤ 2 ^ 64

instance (length : BitVec 64) : Decidable (Fits length) := Nat.decLe _ _

/-- What a call takes off the pool. -/
def rounded (length : BitVec 64) : ℕ := (gnuosAlignUp length 4096#64).toNat

theorem rounded_eq (length : BitVec 64) :
    rounded length = (length.toNat + 4095) % 2 ^ 64 / 4096 * 4096 :=
  toNat_round_up length (n := 12) (by decide)

theorem rounded_mod (length : BitVec 64) : rounded length % 4096 = 0 := by
  rw [rounded_eq]
  exact Nat.mul_mod_left _ _

theorem le_rounded {length : BitVec 64} (h : Fits length) : length.toNat ≤ rounded length := by
  unfold Fits at h
  rw [rounded_eq, Nat.mod_eq_of_lt (by omega)]
  omega

theorem rounded_of_not_fits {length : BitVec 64} (h : ¬ Fits length) : rounded length = 0 := by
  unfold Fits at h
  have hlt := length.isLt
  rw [rounded_eq]
  omega

/-! ## One call -/

section Call

variable {pool : BitVec 64} {s : MmanState} {c : MmapCall}

/-- What a call can do: fail, return the address it was given, or cut a region off the pool. -/
inductive MmapResult (pool : BitVec 64) (s : MmanState) (c : MmapCall) :
    Option (BitVec 64) × MmanState → Prop
  | invalid (hlength : c.length = 0#64) :
    MmapResult pool s c (none, { s with errnoValue := gnuosPthreadEinval })
  | fixed (hfixed : c.isFixed = true) : MmapResult pool s c (some c.addr, s)
  | full (hfull : 0x200000 < s.mmapPoolNext.toNat + rounded c.length) :
    MmapResult pool s c (none, { s with errnoValue := enomem })
  | cut (hleft : s.mmapPoolNext.toNat + rounded c.length ≤ 0x200000) :
    MmapResult pool s c (some (pool + s.mmapPoolNext),
      { s with mmapPoolNext := s.mmapPoolNext + gnuosAlignUp c.length 4096#64 })

/-- The capacity test compares numbers: neither the subtraction nor the sum wraps. -/
theorem capacity_iff (next aligned : BitVec 64) :
    (gnuosMmanPoolSize < next ∨ gnuosMmanPoolSize - next < aligned) ↔
      0x200000 < next.toNat + aligned.toNat := by
  have hsize : gnuosMmanPoolSize.toNat = 0x200000 := rfl
  by_cases hnext : gnuosMmanPoolSize < next
  · have hlt := lt_def.mp hnext
    simp only [hnext, true_or, true_iff]
    omega
  · have hle : next ≤ gnuosMmanPoolSize := BitVec.not_lt.mp hnext
    have hle' := le_def.mp hle
    simp only [hnext, false_or]
    rw [lt_def, toNat_sub_of_le hle]
    omega

theorem mmap_outcome (pool : BitVec 64) (s : MmanState) (c : MmapCall) :
    MmapResult pool s c (mmap pool s c.addr c.length c.flags) := by
  unfold mmap
  split
  · rename_i hlength
    exact .invalid hlength
  split
  · rename_i hfixed
    exact .fixed (decide_eq_true hfixed.1)
  simp only
  split
  · rename_i hfull
    exact .full ((capacity_iff _ _).mp hfull)
  · rename_i hleft
    rw [capacity_iff] at hleft
    exact .cut (Nat.le_of_not_lt hleft)

theorem MmapResult.next_toNat (hleft : s.mmapPoolNext.toNat + rounded c.length ≤ 0x200000) :
    (s.mmapPoolNext + gnuosAlignUp c.length 4096#64).toNat =
      s.mmapPoolNext.toNat + rounded c.length := by
  rw [toNat_add]
  exact Nat.mod_eq_of_lt (Nat.lt_of_le_of_lt hleft (by decide))

end Call

/-! ## Whole runs -/

/-- The regions lie one behind the other below `g_mmap_pool_next`, each as long as its call has
taken off the pool. -/
structure Stacked (pool : BitVec 64) (y : MmapSystem) : Prop where
  next_mod : y.mman.mmapPoolNext.toNat % 4096 = 0
  next_le : y.mman.mmapPoolNext.toNat ≤ 0x200000
  aligned : ∀ r ∈ y.regions, r.offset pool % 4096 = 0
  below : ∀ r ∈ y.regions, r.offset pool + rounded r.length ≤ y.mman.mmapPoolNext.toNat
  ordered : y.regions.Pairwise fun r r' => r.offset pool + rounded r.length ≤ r'.offset pool

namespace Stacked

variable {pool : BitVec 64} {y : MmapSystem}

theorem start : Stacked pool .start :=
  ⟨rfl, by decide, by simp [MmapSystem.start], by simp [MmapSystem.start], List.Pairwise.nil⟩

/-- The call does not move `g_mmap_pool_next`. -/
theorem keep (h : Stacked pool y) {s : MmanState} (hs : s.mmapPoolNext = y.mman.mmapPoolNext) :
    Stacked pool { y with mman := s } := by
  constructor <;> simp only [hs]
  · exact h.next_mod
  · exact h.next_le
  · exact h.aligned
  · exact h.below
  · exact h.ordered

/-- The pool gets smaller. -/
theorem advance (h : Stacked pool y) {s : MmanState} {n : ℕ} (hn : n % 4096 = 0)
    (hs : s.mmapPoolNext.toNat = y.mman.mmapPoolNext.toNat + n)
    (hle : y.mman.mmapPoolNext.toNat + n ≤ 0x200000) : Stacked pool { y with mman := s } := by
  have hmod := h.next_mod
  refine ⟨?_, ?_, h.aligned, ?_, h.ordered⟩
  · show s.mmapPoolNext.toNat % 4096 = 0
    omega
  · show s.mmapPoolNext.toNat ≤ 0x200000
    omega
  · intro r hr
    have hbelow := h.below r hr
    show r.offset pool + rounded r.length ≤ s.mmapPoolNext.toNat
    omega

theorem offset_next (pool next length : BitVec 64) :
    Region.offset pool ⟨pool + next, length⟩ = next.toNat := by
  rw [Region.offset, add_comm, add_sub_cancel]

section

variable (h : Stacked pool y)

include h

/-- A region is put behind the others. -/
theorem push {s : MmanState} {length : BitVec 64}
    (hs : s.mmapPoolNext.toNat = y.mman.mmapPoolNext.toNat + rounded length)
    (hle : y.mman.mmapPoolNext.toNat + rounded length ≤ 0x200000) :
    Stacked pool ⟨s, y.regions ++ [⟨pool + y.mman.mmapPoolNext, length⟩]⟩ := by
  have hadv := h.advance (rounded_mod length) hs hle
  refine ⟨hadv.next_mod, hadv.next_le, ?_, ?_, ?_⟩
  · intro r hr
    rcases mem_append.mp hr with hr | hr
    · exact h.aligned r hr
    · rw [mem_singleton.mp hr, offset_next]
      exact h.next_mod
  · intro r hr
    rcases mem_append.mp hr with hr | hr
    · exact hadv.below r hr
    · rw [mem_singleton.mp hr, offset_next]
      exact hs.ge
  · rw [pairwise_append]
    refine ⟨h.ordered, pairwise_singleton _ _, ?_⟩
    intro r hr r' hr'
    rw [mem_singleton.mp hr', offset_next]
    exact h.below r hr

theorem step (c : MmapCall) : Stacked pool (y.step pool c) := by
  have houtcome := mmap_outcome pool y.mman c
  unfold MmapSystem.step
  generalize mmap pool y.mman c.addr c.length c.flags = r at houtcome ⊢
  cases houtcome with
  | invalid hlength => exact h.keep rfl
  | fixed hfixed =>
    simp only [hfixed, if_true]
    exact h.keep rfl
  | full hfull => exact h.keep rfl
  | cut hleft =>
    have hnext := MmapResult.next_toNat hleft
    cases hfixed : c.isFixed with
    | true =>
      simp only [if_true]
      exact h.advance (rounded_mod c.length) hnext hleft
    | false =>
      simp only [Bool.false_eq_true, if_false]
      exact h.push hnext hleft

theorem run (calls : List MmapCall) : Stacked pool (y.run pool calls) := by
  induction calls generalizing y with
  | nil => exact h
  | cons c calls ih => exact ih (h.step c)

/-- The regions are apart when each of them is as long as it was asked to be. -/
theorem regionsApart_iff :
    RegionsApart pool y.regions ↔ ∀ r ∈ y.regions, Fits r.length := by
  constructor
  · intro hapart r hr
    have hinside := hapart.inside r hr
    unfold Fits
    omega
  · intro hfits
    refine ⟨h.aligned, ?_, ?_⟩
    · intro r hr
      have hlength := le_rounded (hfits r hr)
      have hbelow := h.below r hr
      have hnext := h.next_le
      omega
    · refine h.ordered.imp_of_mem ?_
      intro r r' hr _ hle
      have hlength := le_rounded (hfits r hr)
      omega

/-- A call that does not fit is never refused. -/
theorem fits_step (c : MmapCall) :
    (∀ r ∈ (y.step pool c).regions, Fits r.length) ↔
      (∀ r ∈ y.regions, Fits r.length) ∧ (c.isFixed = false → Fits c.length) := by
  have houtcome := mmap_outcome pool y.mman c
  unfold MmapSystem.step
  generalize mmap pool y.mman c.addr c.length c.flags = r at houtcome ⊢
  cases houtcome with
  | invalid hlength =>
    have hfits : Fits c.length := by
      rw [hlength]
      decide
    simp [hfits]
  | fixed hfixed => simp [hfixed]
  | full hfull =>
    have hfits : Fits c.length := by
      by_contra hwrap
      have hnext := h.next_le
      rw [rounded_of_not_fits hwrap] at hfull
      omega
    simp [hfits]
  | cut hleft =>
    cases hfixed : c.isFixed with
    | true => simp
    | false => simp [or_imp, forall_and]

theorem fits_run (calls : List MmapCall) :
    (∀ r ∈ (y.run pool calls).regions, Fits r.length) ↔
      (∀ r ∈ y.regions, Fits r.length) ∧ ∀ c ∈ calls, c.isFixed = false → Fits c.length := by
  induction calls generalizing y with
  | nil => simp [MmapSystem.run]
  | cons c calls ih =>
    have hrest := ih (h.step c)
    rw [h.fits_step c, and_assoc] at hrest
    rw [forall_mem_cons]
    exact hrest

end

end Stacked

/-- A call that fails stores an error number and changes nothing else. -/
def FailsCleanly (pool : BitVec 64) (s : MmanState) : Prop :=
  ∀ c : MmapCall, (mmap pool s c.addr c.length c.flags).1 = none →
    ∃ error, error ≠ 0#32 ∧ (mmap pool s c.addr c.length c.flags).2 = { s with errnoValue := error }

theorem failsCleanly (pool : BitVec 64) (s : MmanState) : FailsCleanly pool s := by
  intro c hnone
  have houtcome := mmap_outcome pool s c
  generalize mmap pool s c.addr c.length c.flags = r at houtcome hnone ⊢
  cases houtcome with
  | invalid hlength => exact ⟨gnuosPthreadEinval, by decide, rfl⟩
  | fixed hfixed => exact absurd hnone (by simp)
  | full hfull => exact ⟨enomem, by decide, rfl⟩
  | cut hleft => exact absurd hnone (by simp)

/-- The regions of a run are apart exactly when no length was too large to be rounded up, and
every call that fails does so without a trace in the pool. -/
theorem mmap_run_apart_iff (pool : BitVec 64) (calls : List MmapCall) :
    (RegionsApart pool (MmapSystem.start.run pool calls).regions ↔
      ∀ c ∈ calls, c.isFixed = false → Fits c.length) ∧
    FailsCleanly pool (MmapSystem.start.run pool calls).mman := by
  have hrun : Stacked pool (MmapSystem.start.run pool calls) := Stacked.start.run calls
  refine ⟨?_, failsCleanly pool _⟩
  rw [hrun.regionsApart_iff, Stacked.start.fits_run]
  simp [MmapSystem.start]

/-- Three pages and one page, a page that was asked for by address, and a refused request. -/
def fittingCalls : List MmapCall :=
  [⟨0#64, 0x2001#64, 0#32⟩, ⟨0#64, 1#64, 0x20#32⟩, ⟨0x5000#64, 0x1000#64, mapFixed⟩,
    ⟨0#64, 0x200000#64, 0#32⟩]

theorem mmap_run_apart_iff_fitting :
    RegionsApart 0x600000#64 (MmapSystem.start.run 0x600000#64 fittingCalls).regions ∧
    (MmapSystem.start.run 0x600000#64 fittingCalls).regions =
      [⟨0x600000#64, 0x2001#64⟩, ⟨0x603000#64, 1#64⟩] :=
  ⟨(mmap_run_apart_iff 0x600000#64 fittingCalls).1.mpr (by decide), by decide⟩

/-- A length that cannot be rounded up gets the start of the pool, and the next call gets it once
more. -/
theorem huge_length_aliases :
    (MmapSystem.start.run 0x600000#64
      [⟨0#64, 0xFFFFFFFFFFFFF001#64, 0#32⟩, ⟨0#64, 0x1000#64, 0#32⟩]).regions =
        [⟨0x600000#64, 0xFFFFFFFFFFFFF001#64⟩, ⟨0x600000#64, 0x1000#64⟩] ∧
    ¬ RegionsApart 0x600000#64 (MmapSystem.start.run 0x600000#64
      [⟨0#64, 0xFFFFFFFFFFFFF001#64, 0#32⟩, ⟨0#64, 0x1000#64, 0#32⟩]).regions := by
  refine ⟨by decide, ?_⟩
  intro hapart
  have hinside := hapart.inside ⟨0x600000#64, 0xFFFFFFFFFFFFF001#64⟩ (by decide)
  exact absurd hinside (by decide)

end GnuOS.Libc
