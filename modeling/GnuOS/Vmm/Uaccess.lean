import GnuOS.Vmm.Entries

/-!
# Access to user memory

A model of `kernel/mm/uaccess.c`.  The kernel checks a range of user memory page by page, from the
page of the first byte to the page of the last one, before it copies.  The check is exact: it
accepts a range if and only if every single byte of it is mapped for the user.

The `for (;;)` of the check gets fuel, and `none` means that the fuel ran out; the main result says
that it always ends.  The two functions that open and close the SMAP window around a copy are left
out.
-/

namespace GnuOS.Vmm

open GnuOS.Lib
open BitVec hiding not_or

def uaccessUserMaxVa : BitVec 64 := 0x00007FFFFFFFFFFF#64

/-! ## The functions -/

section

variable {σ : Type}

/-- The loop of `uaccess_validate_range`. -/
def validatePagesLoop (s : VmmState σ) (requireWrite : Bool) (lastPage : BitVec 64) :
    ℕ → BitVec 64 → Option Bool
  | 0, _ => none
  | fuel + 1, pageAddr =>
    match vmmQueryMapping s pageAddr with
    | none => some false
    | some (_, flags) =>
      if flags &&& vmmMapUser = 0#64 then some false
      else if requireWrite ∧ flags &&& vmmMapWritable = 0#64 then some false
      else if pageAddr = lastPage then some true
      else validatePagesLoop s requireWrite lastPage fuel (pageAddr + mmPageSize)

def uaccessValidateRange (fuel : ℕ) (s : VmmState σ) (userAddr size : BitVec 64)
    (requireWrite : Bool) : Option Bool :=
  if size = 0#64 then some true
  else if userAddr = 0#64 ∨ userAddr > uaccessUserMaxVa then some false
  else
    let endAddr := userAddr + size - 1#64
    if endAddr < userAddr ∨ endAddr > uaccessUserMaxVa then some false
    else
      let pageAddr := userAddr &&& ~~~(mmPageSize - 1#64)
      let lastPage := endAddr &&& ~~~(mmPageSize - 1#64)
      validatePagesLoop s requireWrite lastPage fuel pageAddr

def uaccessValidateRead (fuel : ℕ) (s : VmmState σ) (userAddr size : BitVec 64) : Option Bool :=
  uaccessValidateRange fuel s userAddr size false

def uaccessValidateWrite (fuel : ℕ) (s : VmmState σ) (userAddr size : BitVec 64) : Option Bool :=
  uaccessValidateRange fuel s userAddr size true

/-- The bytes behind the virtual addresses.  `touched` is a history variable: the addresses of user
memory that were read or written, in this order. -/
structure ByteMemory where
  bytes : BitVec 64 → BitVec 8
  touched : List (BitVec 64)

/-- The loop `dst_bytes[index] = src_bytes[index]` of both copies, `count` more bytes from `index`
on; `user` is the one of the two pointers that goes to user memory. -/
def copyLoop (dst src user : BitVec 64) : ℕ → ℕ → ByteMemory → ByteMemory
  | 0, _, m => m
  | count + 1, index, m =>
    copyLoop dst src user count (index + 1)
      { bytes := Function.update m.bytes (dst + BitVec.ofNat 64 index)
          (m.bytes (src + BitVec.ofNat 64 index))
        touched := m.touched ++ [user + BitVec.ofNat 64 index] }

def uaccessCopyFromUser (fuel : ℕ) (s : VmmState σ) (m : ByteMemory)
    (dst userSrc size : BitVec 64) : Option (Int × ByteMemory) :=
  if dst = 0#64 then some (-1, m)
  else
    match uaccessValidateRead fuel s userSrc size with
    | none => none
    | some false => some (-1, m)
    | some true => some (0, copyLoop dst userSrc userSrc size.toNat 0 m)

def uaccessCopyToUser (fuel : ℕ) (s : VmmState σ) (m : ByteMemory) (userDst src size : BitVec 64) :
    Option (Int × ByteMemory) :=
  if src = 0#64 then some (-1, m)
  else
    match uaccessValidateWrite fuel s userDst size with
    | none => none
    | some false => some (-1, m)
    | some true => some (0, copyLoop userDst src userDst size.toNat 0 m)

/-! ## What the check is for -/

/-- The byte at `x` is mapped for the user, and writable if `write` is set. -/
def ByteAllowed (s : VmmState σ) (write : Bool) (x : BitVec 64) : Prop :=
  ∃ phys flags, vmmQueryMapping s x = some (phys, flags) ∧ flags &&& vmmMapUser ≠ 0#64 ∧
    (write = true → flags &&& vmmMapWritable ≠ 0#64)

/-- The range is empty, or it is a range of user addresses with every byte allowed. -/
def RangeAllowed (s : VmmState σ) (write : Bool) (addr size : BitVec 64) : Prop :=
  size = 0#64 ∨
    (addr ≠ 0#64 ∧ addr.toNat + size.toNat ≤ 2 ^ 64 ∧
      addr.toNat + size.toNat - 1 ≤ 0x7FFFFFFFFFFF ∧
      ∀ x : BitVec 64, addr.toNat ≤ x.toNat → x.toNat < addr.toNat + size.toNat →
        ByteAllowed s write x)

/-- A copy of `size` bytes to `dst` that touches the user memory from `user` on: it is done in full
and only touches allowed bytes, or it fails and does nothing. -/
inductive CopyOutcome (s : VmmState σ) (write : Bool) (m : ByteMemory)
    (dst kernel user size : BitVec 64) : Option (Int × ByteMemory) → Prop
  | done (m' : ByteMemory) (hkernel : kernel ≠ 0#64) (hrange : RangeAllowed s write user size)
      (htouched : m'.touched =
        m.touched ++ (List.range size.toNat).map fun i => user + BitVec.ofNat 64 i)
      (hallowed : ∀ i, i < size.toNat → ByteAllowed s write (user + BitVec.ofNat 64 i))
      (hframe : ∀ x, (∀ i, i < size.toNat → x ≠ dst + BitVec.ofNat 64 i) →
        m'.bytes x = m.bytes x) :
      CopyOutcome s write m dst kernel user size (some (0, m'))
  | refused (h : kernel = 0#64 ∨ ¬ RangeAllowed s write user size) :
      CopyOutcome s write m dst kernel user size (some (-1, m))

/-! ## Pages and bytes -/

variable {s : VmmState σ} {write : Bool} {x y : BitVec 64}

theorem samePage_of_div_eq (h : x.toNat / 4096 = y.toNat / 4096) : SamePage x y := by
  intro b hlo _
  have hbit : ∀ z : BitVec 64, z.getLsbD b = (z.toNat / 2 ^ 12).testBit (b - 12) := by
    intro z
    rw [Nat.testBit_div_two_pow, Nat.sub_add_cancel hlo]
    rfl
  rw [hbit x, hbit y]
  exact congrArg (fun n => n.testBit (b - 12)) h

/-- The flags of a mapping are those of its page. -/
theorem query_flags_congr (h : SamePage x y) :
    (vmmQueryMapping s x).map Prod.snd = (vmmQueryMapping s y).map Prod.snd := by
  obtain ⟨h4, h3, h2, h1⟩ := h.indices
  unfold vmmQueryMapping
  rw [h4, h3, h2, h1]
  -- The entries are the same ones now; what is left of the address is in the frame only.
  simp only [apply_ite (Option.map Prod.snd), Option.map_none, Option.map_some]

theorem byteAllowed_iff : ByteAllowed s write x ↔
    ∃ flags, (vmmQueryMapping s x).map Prod.snd = some flags ∧ flags &&& vmmMapUser ≠ 0#64 ∧
      (write = true → flags &&& vmmMapWritable ≠ 0#64) := by
  constructor
  · rintro ⟨phys, flags, hquery, hflags⟩
    exact ⟨flags, by rw [hquery]; rfl, hflags⟩
  · rintro ⟨flags, hquery, hflags⟩
    obtain ⟨⟨phys, _⟩, hmapping, rfl⟩ := Option.map_eq_some_iff.mp hquery
    exact ⟨phys, _, hmapping, hflags⟩

theorem byteAllowed_congr (h : SamePage x y) : ByteAllowed s write x ↔ ByteAllowed s write y := by
  rw [byteAllowed_iff, byteAllowed_iff, query_flags_congr h]

/-! ## The loop -/

variable {last page : BitVec 64}

theorem validatePagesLoop_refused (h : ¬ ByteAllowed s write page) (fuel : ℕ) :
    validatePagesLoop s write last (fuel + 1) page = some false := by
  rw [validatePagesLoop]
  cases hquery : vmmQueryMapping s page with
  | none => rfl
  | some mapping =>
    obtain ⟨phys, flags⟩ := mapping
    simp only
    by_cases huser : flags &&& vmmMapUser = 0#64
    · rw [if_pos huser]
    rw [if_neg huser]
    apply if_pos
    by_contra hwrite
    refine h ⟨phys, flags, hquery, huser, ?_⟩
    exact fun hw hzero => hwrite ⟨hw, hzero⟩

theorem validatePagesLoop_allowed (h : ByteAllowed s write page) (fuel : ℕ) :
    validatePagesLoop s write last (fuel + 1) page =
      if page = last then some true
      else validatePagesLoop s write last fuel (page + mmPageSize) := by
  obtain ⟨phys, flags, hquery, huser, hwrite⟩ := h
  rw [validatePagesLoop, hquery]
  simp only
  rw [if_neg huser, if_neg fun hw => hwrite hw.1 hw.2]

/-- The loop ends at the last page, `n` pages on, and has then seen all of them. -/
theorem validatePagesLoop_spec (s : VmmState σ) (write : Bool) (page : BitVec 64) (n : ℕ) {fuel : ℕ}
    (hfuel : n < fuel) (hlast : page.toNat + n * 4096 = last.toNat) :
    ∃ ok, validatePagesLoop s write last fuel page = some ok ∧
      (ok = true ↔ ∀ i, i ≤ n → ByteAllowed s write (page + BitVec.ofNat 64 (i * 4096))) := by
  have hfirst : page + BitVec.ofNat 64 (0 * 4096) = page := by simp
  obtain ⟨fuel, rfl⟩ : ∃ k, fuel = k + 1 := ⟨fuel - 1, by omega⟩
  induction n generalizing page fuel with
  | zero =>
    have heq : page = last := eq_of_toNat_eq (by omega)
    by_cases hok : ByteAllowed s write page
    · rw [validatePagesLoop_allowed hok, if_pos heq]
      refine ⟨true, rfl, fun _ i hi => ?_, fun _ => rfl⟩
      rw [Nat.le_zero.mp hi, hfirst]
      exact hok
    · rw [validatePagesLoop_refused hok]
      refine ⟨false, rfl, by simp, fun h => absurd (h 0 (by omega)) ?_⟩
      rw [hfirst]
      exact hok
  | succ n ih =>
    have hnext : (page + mmPageSize).toNat = page.toNat + 4096 := by
      have hlt := last.isLt
      rw [toNat_add, mmPageSize, toNat_ofNat]
      omega
    have hshift : ∀ i, page + mmPageSize + BitVec.ofNat 64 (i * 4096) =
        page + BitVec.ofNat 64 ((i + 1) * 4096) := by
      intro i
      rw [add_assoc, mmPageSize, ← ofNat_add, Nat.add_mul, Nat.one_mul,
        Nat.add_comm 4096]
    by_cases hok : ByteAllowed s write page
    · have hne : page ≠ last := by
        rintro rfl
        omega
      obtain ⟨fuel, rfl⟩ : ∃ k, fuel = k + 1 := ⟨fuel - 1, by omega⟩
      rw [validatePagesLoop_allowed hok, if_neg hne]
      obtain ⟨ok, hrun, hiff⟩ := ih (page + mmPageSize) (by omega) (by simp) fuel (by omega)
      refine ⟨ok, hrun, hiff.trans ⟨fun h i hi => ?_, fun h i hi => ?_⟩⟩
      · cases i with
        | zero =>
          rw [hfirst]
          exact hok
        | succ i =>
          rw [← hshift]
          exact h i (by omega)
      · rw [hshift]
        exact h (i + 1) (by omega)
    · rw [validatePagesLoop_refused hok]
      refine ⟨false, rfl, by simp, fun h => absurd (h 0 (by omega)) ?_⟩
      rw [hfirst]
      exact hok

/-! ## The check -/

theorem toNat_pageOf (x : BitVec 64) :
    (x &&& ~~~(mmPageSize - 1#64)).toNat = x.toNat / 4096 * 4096 :=
  toNat_and_not_mask x 12

/-- All the bytes between two addresses are allowed if all their pages are. -/
theorem bytes_allowed_iff_pages (s : VmmState σ) (write : Bool) {first : BitVec 64}
    (hle : first.toNat ≤ last.toNat) :
    (∀ x : BitVec 64, first.toNat ≤ x.toNat → x.toNat < last.toNat + 1 → ByteAllowed s write x) ↔
      ∀ i, i ≤ last.toNat / 4096 - first.toNat / 4096 → ByteAllowed s write
        ((first &&& ~~~(mmPageSize - 1#64)) + BitVec.ofNat 64 (i * 4096)) := by
  have hlt := last.isLt
  have hpage : ∀ i, i ≤ last.toNat / 4096 - first.toNat / 4096 →
      ((first &&& ~~~(mmPageSize - 1#64)) + BitVec.ofNat 64 (i * 4096)).toNat =
        (first.toNat / 4096 + i) * 4096 := by
    intro i hi
    rw [toNat_add, toNat_pageOf, toNat_ofNat]
    omega
  constructor
  · intro h i hi
    -- the first byte of the range on this page
    have hbyte : (BitVec.ofNat 64 (max first.toNat ((first.toNat / 4096 + i) * 4096))).toNat =
        max first.toNat ((first.toNat / 4096 + i) * 4096) := by
      rw [toNat_ofNat]
      omega
    refine (byteAllowed_congr (samePage_of_div_eq ?_)).mp
      (h (BitVec.ofNat 64 (max first.toNat ((first.toNat / 4096 + i) * 4096))) ?_ ?_)
    · rw [hbyte, hpage i hi]
      omega
    · rw [hbyte]
      omega
    · rw [hbyte]
      omega
  · intro h x hlo hhi
    have hi : x.toNat / 4096 - first.toNat / 4096 ≤ last.toNat / 4096 - first.toNat / 4096 := by
      omega
    refine (byteAllowed_congr (samePage_of_div_eq ?_)).mpr (h _ hi)
    rw [hpage _ hi]
    omega

theorem uaccessValidateRange_spec (s : VmmState σ) (addr size : BitVec 64) (write : Bool) {fuel : ℕ}
    (hfuel : size.toNat / 4096 + 2 ≤ fuel) :
    ∃ ok, uaccessValidateRange fuel s addr size write = some ok ∧
      (ok = true ↔ RangeAllowed s write addr size) := by
  have haddr := addr.isLt
  have hmax : uaccessUserMaxVa.toNat = 0x7FFFFFFFFFFF := by decide
  unfold uaccessValidateRange RangeAllowed
  by_cases hsize : size = 0#64
  · rw [if_pos hsize]
    exact ⟨true, rfl, fun _ => .inl hsize, fun _ => rfl⟩
  have hpos : 0 < size.toNat := by
    rw [Nat.pos_iff_ne_zero]
    exact fun hzero => hsize (eq_of_toNat_eq hzero)
  rw [if_neg hsize]
  by_cases hstart : addr = 0#64 ∨ addr > uaccessUserMaxVa
  · rw [if_pos hstart]
    refine ⟨false, rfl, by simp, ?_⟩
    rintro (hzero | ⟨hne, _, htop, _⟩)
    · exact absurd hzero hsize
    · rw [gt_iff_lt, lt_def, hmax] at hstart
      rcases hstart with hzero | hhigh
      · exact absurd hzero hne
      · omega
  rw [if_neg hstart]
  rw [not_or, gt_iff_lt, lt_def, hmax] at hstart
  -- the sum wraps by at most one turn, and then the end is below the start
  have hend : (addr + size - 1#64).toNat = (addr.toNat + size.toNat - 1) % 2 ^ 64 := by
    have hlt := size.isLt
    rw [toNat_sub, toNat_add, toNat_ofNat]
    omega
  simp only
  by_cases hbad : addr + size - 1#64 < addr ∨ addr + size - 1#64 > uaccessUserMaxVa
  · rw [if_pos hbad]
    refine ⟨false, rfl, by simp, ?_⟩
    rintro (hzero | ⟨_, hwrap, htop, _⟩)
    · exact absurd hzero hsize
    · rw [gt_iff_lt, lt_def, lt_def, hmax, hend] at hbad
      omega
  rw [if_neg hbad]
  rw [gt_iff_lt, lt_def, lt_def, hmax, hend] at hbad
  have hnowrap : addr.toNat + size.toNat - 1 < 2 ^ 64 := by
    have hlt := size.isLt
    omega
  rw [Nat.mod_eq_of_lt hnowrap] at hend hbad
  have hle : addr.toNat ≤ (addr + size - 1#64).toNat := by omega
  have hpages := bytes_allowed_iff_pages s write hle
  have hbytes : (addr + size - 1#64).toNat + 1 = addr.toNat + size.toNat := by omega
  have hcount : (addr &&& ~~~(mmPageSize - 1#64)).toNat +
      ((addr + size - 1#64).toNat / 4096 - addr.toNat / 4096) * 4096 =
        ((addr + size - 1#64) &&& ~~~(mmPageSize - 1#64)).toNat := by
    rw [toNat_pageOf, toNat_pageOf]
    omega
  have hrounds : (addr + size - 1#64).toNat / 4096 - addr.toNat / 4096 < fuel := by omega
  obtain ⟨ok, hrun, hiff⟩ := validatePagesLoop_spec s write _ _ hrounds hcount
  rw [hbytes] at hpages
  refine ⟨ok, hrun, ?_⟩
  rw [hiff, ← hpages]
  constructor
  · intro h
    exact .inr ⟨hstart.1, by omega, by omega, h⟩
  · rintro (hzero | ⟨_, _, _, h⟩)
    · exact absurd hzero hsize
    · exact h

/-! ## The copies -/

theorem copyLoop_touched (dst src user : BitVec 64) (count index : ℕ) (m : ByteMemory) :
    (copyLoop dst src user count index m).touched =
      m.touched ++ (List.range' index count).map fun i => user + BitVec.ofNat 64 i := by
  induction count generalizing index m with
  | zero => simp [copyLoop]
  | succ count ih =>
    rw [copyLoop, ih, List.range'_succ, List.map_cons, List.append_assoc]
    rfl

/-- Only the bytes of the destination change. -/
theorem copyLoop_frame (dst src user : BitVec 64) (count index : ℕ) (m : ByteMemory)
    (h : ∀ i, i < index + count → x ≠ dst + BitVec.ofNat 64 i) :
    (copyLoop dst src user count index m).bytes x = m.bytes x := by
  induction count generalizing index m with
  | zero => rfl
  | succ count ih =>
    rw [copyLoop, ih _ _ (fun i hi => h i (by omega))]
    exact Function.update_of_ne (h index (by omega)) _ _

theorem RangeAllowed.byte {addr size : BitVec 64} (h : RangeAllowed s write addr size) {i : ℕ}
    (hi : i < size.toNat) : ByteAllowed s write (addr + BitVec.ofNat 64 i) := by
  rcases h with rfl | ⟨_, hwrap, htop, hbytes⟩
  · exact absurd hi (by simp)
  · have hadd : (addr + BitVec.ofNat 64 i).toNat = addr.toNat + i := by
      rw [toNat_add, toNat_ofNat]
      omega
    exact hbytes _ (by omega) (by omega)

theorem copyOutcome_copyLoop (m : ByteMemory) (dst src : BitVec 64) {kernel user size : BitVec 64}
    (hkernel : kernel ≠ 0#64) (hrange : RangeAllowed s write user size) :
    CopyOutcome s write m dst kernel user size
      (some (0, copyLoop dst src user size.toNat 0 m)) := by
  refine .done _ hkernel hrange ?_ (fun i hi => hrange.byte hi) ?_
  · rw [copyLoop_touched, List.range_eq_range']
  · intro x hx
    exact copyLoop_frame dst src user size.toNat 0 m (fun i hi => hx i (by omega))

/-- A copy after the checks of both pointers. -/
theorem copyOutcome_of_checks (m : ByteMemory) (dst src kernel : BitVec 64) {user size : BitVec 64}
    {ok : Bool} (hiff : ok = true ↔ RangeAllowed s write user size) :
    CopyOutcome s write m dst kernel user size (if kernel = 0#64 then some (-1, m)
      else match some ok with
        | none => none
        | some false => some (-1, m)
        | some true => some (0, copyLoop dst src user size.toNat 0 m)) := by
  split_ifs with hnull
  · exact .refused (.inl hnull)
  cases ok with
  | false => exact .refused (.inr fun h => absurd (hiff.mpr h) (by decide))
  | true => exact copyOutcome_copyLoop m dst src hnull (hiff.mp rfl)

/-- The check of a range of user memory always ends and is exact to the byte, so a copy touches
allowed bytes only or does nothing. -/
theorem uaccess_exact {σ : Type} (s : VmmState σ) (userAddr size : BitVec 64) :
    ∃ rounds, ∀ fuel, rounds ≤ fuel →
      (∃ ok, uaccessValidateRead fuel s userAddr size = some ok ∧
        (ok = true ↔ RangeAllowed s false userAddr size)) ∧
      (∃ ok, uaccessValidateWrite fuel s userAddr size = some ok ∧
        (ok = true ↔ RangeAllowed s true userAddr size)) ∧
      ∀ (m : ByteMemory) (kernel : BitVec 64),
        CopyOutcome s false m kernel kernel userAddr size
          (uaccessCopyFromUser fuel s m kernel userAddr size) ∧
        CopyOutcome s true m userAddr kernel userAddr size
          (uaccessCopyToUser fuel s m userAddr kernel size) := by
  refine ⟨size.toNat / 4096 + 2, fun fuel hfuel => ?_⟩
  obtain ⟨okRead, hread, hreadIff⟩ := uaccessValidateRange_spec s userAddr size false hfuel
  obtain ⟨okWrite, hwrite, hwriteIff⟩ := uaccessValidateRange_spec s userAddr size true hfuel
  have hread' : uaccessValidateRead fuel s userAddr size = some okRead := hread
  have hwrite' : uaccessValidateWrite fuel s userAddr size = some okWrite := hwrite
  refine ⟨⟨okRead, hread, hreadIff⟩, ⟨okWrite, hwrite, hwriteIff⟩, fun m kernel => ⟨?_, ?_⟩⟩
  · rw [uaccessCopyFromUser, hread']
    exact copyOutcome_of_checks m kernel userAddr kernel hreadIff
  · rw [uaccessCopyToUser, hwrite']
    exact copyOutcome_of_checks m userAddr kernel kernel hwriteIff

end

/-- Every user address is in one writable GiB page of the user. -/
def openState : VmmState Unit where
  mem := fun table _ => if table = 0x1000#64 then 0x2007#64 else 0x87#64
  pml4 := 0x1000#64
  kernelLayout := ⟨0#64, 0#64, 0#64, 0#64, 0#64, 0#64, 0#64⟩
  kernelHeapNext := 0#64
  kernelHeapLimit := 0#64
  pmm := ()

-- two bytes on two pages, and a range that goes one byte too far
example : uaccessValidateWrite 3 openState 0x1FFF#64 2#64 = some true := by decide
example : uaccessValidateWrite 3 openState 0x7FFFFFFFFFFF#64 1#64 = some true := by decide
example : uaccessValidateWrite 3 openState 0x7FFFFFFFFFFF#64 2#64 = some false := by decide

end GnuOS.Vmm
