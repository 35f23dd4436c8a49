import GnuOS.Libc.Mmap

/-!
# Descriptors of the libc stub

A model of the socket and file functions in `userspace/libc/ldso/x86_64/libc_stub.c`;
`ldso_bootstrap.c` holds the same text.  There are two tables.  A descriptor is an index into one of
them plus a base: 3 for the 32 sockets, 64 for the 64 files.  A call looks its descriptor up in one
table or in both.

The stub has no network and no disk.  A file is an offset and a `struct stat`; what is written is
dropped, and what is read is zeros.  The bytes that `read` stores in its buffer are not modelled.
-/

namespace GnuOS.Libc

open BitVec Function

/-! ## The tables -/

def gnuosSocketFdBase : BitVec 32 := 3#32
def gnuosSocketMax : ℕ := 32
def gnuosFileFdBase : BitVec 32 := 64#32
def gnuosFileMax : ℕ := 64

structure SocketEntry where
  inUse : Bool
  domain : BitVec 32
  type : BitVec 32
  protocol : BitVec 32
  connected : Bool
  listening : Bool
  shutdownHow : BitVec 32
  deriving DecidableEq, Repr

/-- `struct stat`. -/
structure Stat where
  stDev : BitVec 64
  stIno : BitVec 64
  stMode : BitVec 32
  stNlink : BitVec 64
  stUid : BitVec 32
  stGid : BitVec 32
  stRdev : BitVec 64
  stSize : BitVec 64
  stBlksize : BitVec 64
  stBlocks : BitVec 64
  stAtime : BitVec 64
  stMtime : BitVec 64
  stCtime : BitVec 64
  deriving DecidableEq, Repr

structure FileEntry where
  inUse : Bool
  flags : BitVec 32
  mode : BitVec 32
  offset : BitVec 64
  st : Stat
  deriving DecidableEq, Repr

/-- `g_socket_table`, `g_file_table` and `g_errno_value`. -/
structure DescriptorState where
  socketTable : ℕ → SocketEntry
  fileTable : ℕ → FileEntry
  errnoValue : BitVec 32

def SocketEntry.zero : SocketEntry := ⟨false, 0#32, 0#32, 0#32, false, false, 0#32⟩

def Stat.zero : Stat :=
  ⟨0#64, 0#64, 0#32, 0#64, 0#32, 0#32, 0#64, 0#64, 0#64, 0#64, 0#64, 0#64, 0#64⟩

def FileEntry.zero : FileEntry := ⟨false, 0#32, 0#32, 0#64, Stat.zero⟩

/-- The globals when the program starts: static storage, all zero. -/
def DescriptorState.start : DescriptorState where
  socketTable _ := SocketEntry.zero
  fileTable _ := FileEntry.zero
  errnoValue := 0#32

/-- `*entry = e` for an entry of `g_socket_table`. -/
def DescriptorState.setSocket (s : DescriptorState) (index : ℕ) (e : SocketEntry) :
    DescriptorState :=
  { s with socketTable := update s.socketTable index e }

/-- `*entry = e` for an entry of `g_file_table`. -/
def DescriptorState.setFile (s : DescriptorState) (index : ℕ) (e : FileEntry) : DescriptorState :=
  { s with fileTable := update s.fileTable index e }

namespace DescriptorState

variable (s : DescriptorState) (i : ℕ)

@[simp] theorem setSocket_socketTable (e : SocketEntry) :
    (s.setSocket i e).socketTable = update s.socketTable i e := rfl

@[simp] theorem setSocket_setSocket (e e' : SocketEntry) :
    (s.setSocket i e).setSocket i e' = s.setSocket i e' := by
  simp only [setSocket, update_idem]

@[simp] theorem setFile_fileTable (e : FileEntry) :
    (s.setFile i e).fileTable = update s.fileTable i e := rfl

@[simp] theorem setFile_setFile (e e' : FileEntry) :
    (s.setFile i e).setFile i e' = s.setFile i e' := by
  simp only [setFile, update_idem]

end DescriptorState

/-! ## Errors -/

def gnuosPthreadEnosys : BitVec 32 := 38#32
def gnuosSocketEmfile : BitVec 32 := 24#32
def gnuosSocketEprotonosupport : BitVec 32 := 93#32
def gnuosSocketEnotsock : BitVec 32 := 88#32
def gnuosSocketEafnosupport : BitVec 32 := 97#32
def gnuosSocketEopnotsupp : BitVec 32 := 95#32
def gnuosFileEnoent : BitVec 32 := 2#32
def gnuosFileEbadf : BitVec 32 := 9#32
def gnuosFileEnfile : BitVec 32 := 23#32

/-- Minus one in the width of the caller's result, after storing the error number. -/
def gnuosFail (w : ℕ) (s : DescriptorState) (error : BitVec 32) : BitVec w × DescriptorState :=
  (-1#w, { s with errnoValue := error })

def gnuosFailInt (s : DescriptorState) (error : BitVec 32) : BitVec 32 × DescriptorState :=
  gnuosFail 32 s error

def gnuosFailSsize (s : DescriptorState) (error : BitVec 32) : BitVec 64 × DescriptorState :=
  gnuosFail 64 s error

def gnuosFailOff (s : DescriptorState) (error : BitVec 32) : BitVec 64 × DescriptorState :=
  gnuosFail 64 s error

/-! ## Lookup and allocation -/

/-- The slot `fd - base` of a table of `max` slots, if there is one and it is in use. -/
def lookupSlot (base : BitVec 32) (max : ℕ) (inUse : ℕ → Bool) (fd : BitVec 32) : Option ℕ :=
  -- a descriptor below the base gives a negative index, or wraps to one far behind the table
  let index := fd - base
  if index.toInt < 0 ∨ (max : ℤ) ≤ index.toInt then none
  else if inUse index.toNat then some index.toNat
  else none

def gnuosSocketGet (s : DescriptorState) (sockfd : BitVec 32) : Option ℕ :=
  lookupSlot gnuosSocketFdBase gnuosSocketMax (fun i => (s.socketTable i).inUse) sockfd

def gnuosFileGet (s : DescriptorState) (fd : BitVec 32) : Option ℕ :=
  lookupSlot gnuosFileFdBase gnuosFileMax (fun i => (s.fileTable i).inUse) fd

/-- The first slot of a table of `max` slots that is not in use. -/
def freeSlot (max : ℕ) (inUse : ℕ → Bool) : Option ℕ := (List.range max).find? fun i => !inUse i

def afUnspec : BitVec 32 := 0#32
def afUnix : BitVec 32 := 1#32
def afInet : BitVec 32 := 2#32
def afInet6 : BitVec 32 := 10#32

def gnuosSocketAllocFd (s : DescriptorState) : BitVec 32 × DescriptorState :=
  match freeSlot gnuosSocketMax fun i => (s.socketTable i).inUse with
  | none => (-1#32, s)
  | some index =>
    (gnuosSocketFdBase + BitVec.ofNat 32 index,
      s.setSocket index
        { inUse := true
          domain := afUnspec
          type := 0#32
          protocol := 0#32
          connected := false
          listening := false
          shutdownHow := -1#32 })

def oRdonly : BitVec 32 := 0#32
def oTrunc : BitVec 32 := 0x200#32

/-- `S_IFREG | S_IRUSR | S_IWUSR | S_IRGRP | S_IROTH`. -/
def regularFileMode : BitVec 32 := 0x8000#32 ||| 0x100#32 ||| 0x80#32 ||| 0x20#32 ||| 0x4#32

/-- The stores of `gnuos_file_alloc_fd`; eight fields of the `struct stat` are not among them. -/
def FileEntry.allocated (e : FileEntry) : FileEntry :=
  { e with
    inUse := true
    flags := oRdonly
    mode := regularFileMode
    offset := 0#64
    st := { e.st with
      stMode := regularFileMode
      stSize := 0#64
      stNlink := 1#64
      stBlksize := 4096#64
      stBlocks := 0#64 } }

def gnuosFileAllocFd (s : DescriptorState) : BitVec 32 × DescriptorState :=
  match freeSlot gnuosFileMax fun i => (s.fileTable i).inUse with
  | none => (-1#32, s)
  | some index =>
    (gnuosFileFdBase + BitVec.ofNat 32 index, s.setFile index (s.fileTable index).allocated)

/-! ## Sockets -/

def sockStream : BitVec 32 := 1#32
def sockDgram : BitVec 32 := 2#32
def sockRaw : BitVec 32 := 3#32

def gnuosSocketSupportedDomain (domain : BitVec 32) : Bool :=
  domain = afUnspec ∨ domain = afUnix ∨ domain = afInet ∨ domain = afInet6

def gnuosSocketSupportedType (type : BitVec 32) : Bool :=
  let baseType := type &&& 0x0F#32
  baseType = sockStream ∨ baseType = sockDgram ∨ baseType = sockRaw

def socket (s : DescriptorState) (domain type protocol : BitVec 32) :
    BitVec 32 × DescriptorState :=
  if !gnuosSocketSupportedDomain domain then gnuosFailInt s gnuosSocketEafnosupport
  else if !gnuosSocketSupportedType type then gnuosFailInt s gnuosSocketEprotonosupport
  else
    let (sockfd, s) := gnuosSocketAllocFd s
    if sockfd.toInt < 0 then gnuosFailInt s gnuosSocketEmfile
    else
      match gnuosSocketGet s sockfd with
      -- The source does not test for this: the slot has just been taken.
      | none => (sockfd, s)
      | some i =>
        let entry := s.socketTable i
        (sockfd, s.setSocket i { entry with domain := domain, type := type, protocol := protocol })

/-- The address is not read. -/
def bind (s : DescriptorState) (sockfd : BitVec 32) : BitVec 32 × DescriptorState :=
  match gnuosSocketGet s sockfd with
  | none => gnuosFailInt s gnuosSocketEnotsock
  | some _ => (0#32, s)

/-- The backlog is not read. -/
def listen (s : DescriptorState) (sockfd : BitVec 32) : BitVec 32 × DescriptorState :=
  match gnuosSocketGet s sockfd with
  | none => gnuosFailInt s gnuosSocketEnotsock
  | some i => (0#32, s.setSocket i { s.socketTable i with listening := true })

def accept (s : DescriptorState) (sockfd : BitVec 32) : BitVec 32 × DescriptorState :=
  match gnuosSocketGet s sockfd with
  | none => gnuosFailInt s gnuosSocketEnotsock
  | some i =>
    if !(s.socketTable i).listening then gnuosFailInt s gnuosSocketEopnotsupp
    else gnuosFailInt s gnuosPthreadEnosys

def connect (s : DescriptorState) (sockfd : BitVec 32) : BitVec 32 × DescriptorState :=
  match gnuosSocketGet s sockfd with
  | none => gnuosFailInt s gnuosSocketEnotsock
  | some i => (0#32, s.setSocket i { s.socketTable i with connected := true })

/-- The bytes and the flags are not read. -/
def send (s : DescriptorState) (sockfd : BitVec 32) (len : BitVec 64) :
    BitVec 64 × DescriptorState :=
  match gnuosSocketGet s sockfd with
  | none => gnuosFailSsize s gnuosSocketEnotsock
  | some i =>
    if !(s.socketTable i).connected then gnuosFailSsize s gnuosSocketEopnotsupp
    else (len, s)

def recv (s : DescriptorState) (sockfd : BitVec 32) : BitVec 64 × DescriptorState :=
  match gnuosSocketGet s sockfd with
  | none => gnuosFailSsize s gnuosSocketEnotsock
  | some i =>
    if !(s.socketTable i).connected then gnuosFailSsize s gnuosSocketEopnotsupp
    else (0#64, s)

def shutRd : BitVec 32 := 0#32
def shutRdwr : BitVec 32 := 2#32

def shutdown (s : DescriptorState) (sockfd how : BitVec 32) : BitVec 32 × DescriptorState :=
  match gnuosSocketGet s sockfd with
  | none => gnuosFailInt s gnuosSocketEnotsock
  | some i =>
    if how.toInt < shutRd.toInt ∨ shutRdwr.toInt < how.toInt then gnuosFailInt s gnuosPthreadEinval
    else (0#32, s.setSocket i { s.socketTable i with shutdownHow := how })

/-! ## Files -/

/-- `open`.  The path is `none` for a null pointer, and otherwise the bytes before the terminator;
only the first is read. -/
def openFile (s : DescriptorState) (pathname : Option (List (BitVec 8))) (flags : BitVec 32) :
    BitVec 32 × DescriptorState :=
  match pathname with
  | none | some [] => gnuosFailInt s gnuosPthreadEinval
  | some (c :: _) =>
    if c = 0#8 then gnuosFailInt s gnuosPthreadEinval
    -- '/' and '.'
    else if c ≠ 0x2F#8 ∧ c ≠ 0x2E#8 then gnuosFailInt s gnuosFileEnoent
    else
      let (fd, s) := gnuosFileAllocFd s
      if fd.toInt < 0 then gnuosFailInt s gnuosFileEnfile
      else
        match gnuosFileGet s fd with
        -- As in `socket`, not tested for: the slot has just been taken.
        | none => (fd, s)
        | some i =>
          let entry := { s.fileTable i with flags := flags }
          if flags &&& oTrunc ≠ 0#32 then
            (fd, s.setFile i { entry with st := { entry.st with stSize := 0#64 } })
          else (fd, s.setFile i entry)

def close (s : DescriptorState) (fd : BitVec 32) : BitVec 32 × DescriptorState :=
  match gnuosSocketGet s fd, gnuosFileGet s fd with
  | some i, _ =>
    (0#32,
      s.setSocket i { s.socketTable i with inUse := false, connected := false, listening := false })
  | none, some i => (0#32, s.setFile i { s.fileTable i with inUse := false, offset := 0#64 })
  | none, none => gnuosFailInt s gnuosFileEbadf

def read (s : DescriptorState) (fd : BitVec 32) (buf count : BitVec 64) :
    BitVec 64 × DescriptorState :=
  match gnuosSocketGet s fd, gnuosFileGet s fd with
  -- `recv` looks the descriptor up again
  | some _, _ => recv s fd
  | none, none => gnuosFailSsize s gnuosFileEbadf
  | none, some i =>
    if buf = 0#64 ∧ count ≠ 0#64 then gnuosFailSsize s gnuosPthreadEinval
    else (count, s.setFile i { s.fileTable i with offset := (s.fileTable i).offset + count })

/-- The buffer is not read. -/
def write (s : DescriptorState) (fd : BitVec 32) (count : BitVec 64) :
    BitVec 64 × DescriptorState :=
  match gnuosSocketGet s fd, gnuosFileGet s fd with
  | some _, _ => send s fd count
  | none, none => gnuosFailSsize s gnuosFileEbadf
  | none, some i =>
    let entry := { s.fileTable i with offset := (s.fileTable i).offset + count }
    -- both are `off_t`, and the comparison is signed
    if entry.st.stSize.toInt < entry.offset.toInt then
      (count, s.setFile i { entry with st := { entry.st with stSize := entry.offset } })
    else (count, s.setFile i entry)

def seekSet : BitVec 32 := 0#32
def seekCur : BitVec 32 := 1#32
def seekEnd : BitVec 32 := 2#32

/-- The `switch` of `lseek`; `none` is the default case. -/
def FileEntry.seekBase (entry : FileEntry) (whence : BitVec 32) : Option (BitVec 64) :=
  if whence = seekSet then some 0#64
  else if whence = seekCur then some entry.offset
  else if whence = seekEnd then some entry.st.stSize
  else none

def lseek (s : DescriptorState) (fd : BitVec 32) (offset : BitVec 64) (whence : BitVec 32) :
    BitVec 64 × DescriptorState :=
  match gnuosFileGet s fd with
  | none => gnuosFailOff s gnuosFileEbadf
  | some i =>
    match (s.fileTable i).seekBase whence with
    | none => gnuosFailOff s gnuosPthreadEinval
    | some base =>
      -- of the three calls that add to an offset, only this one checks the sum
      let newOffset := base + offset
      if newOffset.toInt < 0 then gnuosFailOff s gnuosPthreadEinval
      else (newOffset, s.setFile i { s.fileTable i with offset := newOffset })

/-- The last component is what is stored in `*buf`. -/
def fstat (s : DescriptorState) (fd : BitVec 32) (buf : BitVec 64) :
    (BitVec 32 × DescriptorState) × Option Stat :=
  if buf = 0#64 then (gnuosFailInt s gnuosPthreadEinval, none)
  else
    match gnuosFileGet s fd with
    | none => (gnuosFailInt s gnuosFileEbadf, none)
    | some i => ((0#32, s), some (s.fileTable i).st)

def fchmod (s : DescriptorState) (fd mode : BitVec 32) : BitVec 32 × DescriptorState :=
  match gnuosFileGet s fd with
  | none => gnuosFailInt s gnuosFileEbadf
  | some i =>
    (0#32,
      s.setFile i
        { s.fileTable i with mode := mode, st := { (s.fileTable i).st with stMode := mode } })

/-! ## Calls -/

inductive LibcCall
  | socket (domain type protocol : BitVec 32)
  | bind (sockfd : BitVec 32)
  | listen (sockfd : BitVec 32)
  | accept (sockfd : BitVec 32)
  | connect (sockfd : BitVec 32)
  | send (sockfd : BitVec 32) (len : BitVec 64)
  | recv (sockfd : BitVec 32)
  | shutdown (sockfd how : BitVec 32)
  | openFile (pathname : Option (List (BitVec 8))) (flags : BitVec 32)
  | close (fd : BitVec 32)
  | read (fd : BitVec 32) (buf count : BitVec 64)
  | write (fd : BitVec 32) (count : BitVec 64)
  | lseek (fd : BitVec 32) (offset : BitVec 64) (whence : BitVec 32)
  | fstat (fd : BitVec 32) (buf : BitVec 64)
  | fchmod (fd mode : BitVec 32)
  deriving DecidableEq, Repr

/-- The result of a call as the signed number that the caller sees. -/
def signed {w : ℕ} (r : BitVec w × DescriptorState) : ℤ × DescriptorState := (r.1.toInt, r.2)

def runCall (s : DescriptorState) : LibcCall → ℤ × DescriptorState
  | .socket domain type protocol => signed (socket s domain type protocol)
  | .bind sockfd => signed (bind s sockfd)
  | .listen sockfd => signed (listen s sockfd)
  | .accept sockfd => signed (accept s sockfd)
  | .connect sockfd => signed (connect s sockfd)
  | .send sockfd len => signed (send s sockfd len)
  | .recv sockfd => signed (recv s sockfd)
  | .shutdown sockfd how => signed (shutdown s sockfd how)
  | .openFile pathname flags => signed (openFile s pathname flags)
  | .close fd => signed (close s fd)
  | .read fd buf count => signed (read s fd buf count)
  | .write fd count => signed (write s fd count)
  | .lseek fd offset whence => signed (lseek s fd offset whence)
  | .fstat fd buf => signed (fstat s fd buf).1
  | .fchmod fd mode => signed (fchmod s fd mode)

/-- The globals after a run of calls from the start of the program. -/
def runCalls (calls : List LibcCall) : DescriptorState :=
  calls.foldl (fun s call => (runCall s call).2) DescriptorState.start

theorem runCalls_concat (calls : List LibcCall) (call : LibcCall) :
    runCalls (calls ++ [call]) = (runCall (runCalls calls) call).2 := by
  rw [runCalls, List.foldl_append, List.foldl_cons, List.foldl_nil, runCalls]

/-! ## Descriptors and slots -/

variable {inUse : ℕ → Bool}

theorem lookupSlot_eq_some_iff {base fd : BitVec 32} {max i : ℕ} (hmax : max < 2 ^ 31) :
    lookupSlot base max inUse fd = some i ↔
      i < max ∧ inUse i = true ∧ fd = base + BitVec.ofNat 32 i := by
  have hfd : fd = base + (fd - base) := by rw [BitVec.add_comm, BitVec.sub_add_cancel]
  have hint := toInt_eq_toNat_cond (fd - base)
  constructor
  · intro h
    simp only [lookupSlot] at h
    split_ifs at h with hout huse
    rw [Option.some.injEq] at h
    subst h
    refine ⟨?_, huse, ?_⟩
    · split_ifs at hint with hlow <;> omega
    · rw [ofNat_toNat, setWidth_eq]
      exact hfd
  · rintro ⟨hi, huse, rfl⟩
    have hindex : base + BitVec.ofNat 32 i - base = BitVec.ofNat 32 i := by
      rw [BitVec.add_comm, BitVec.add_sub_cancel]
    have hnat : (BitVec.ofNat 32 i).toNat = i := by
      rw [toNat_ofNat]
      exact Nat.mod_eq_of_lt (by omega)
    rw [hindex, hnat, if_pos (by omega)] at hint
    simp only [lookupSlot, hindex, hnat]
    rw [if_neg (by omega), if_pos huse]

theorem gnuosSocketGet_eq_some_iff {s : DescriptorState} {fd : BitVec 32} {i : ℕ} :
    gnuosSocketGet s fd = some i ↔
      i < gnuosSocketMax ∧ (s.socketTable i).inUse = true ∧
        fd = gnuosSocketFdBase + BitVec.ofNat 32 i :=
  lookupSlot_eq_some_iff (by decide)

theorem gnuosFileGet_eq_some_iff {s : DescriptorState} {fd : BitVec 32} {i : ℕ} :
    gnuosFileGet s fd = some i ↔
      i < gnuosFileMax ∧ (s.fileTable i).inUse = true ∧
        fd = gnuosFileFdBase + BitVec.ofNat 32 i :=
  lookupSlot_eq_some_iff (by decide)

/-- A descriptor is a small positive number. -/
theorem toInt_descriptor {base : BitVec 32} {i : ℕ} (h : base.toNat + i < 2 ^ 31) :
    (base + BitVec.ofNat 32 i).toInt = (base.toNat + i : ℕ) := by
  have hnat : (base + BitVec.ofNat 32 i).toNat = base.toNat + i := by
    rw [toNat_add, toNat_ofNat, Nat.add_mod_mod]
    exact Nat.mod_eq_of_lt (by omega)
  rw [toInt_eq_toNat_of_lt (by omega), hnat]

theorem toInt_socketDescriptor {i : ℕ} (hi : i < gnuosSocketMax) :
    (gnuosSocketFdBase + BitVec.ofNat 32 i).toInt = 3 + i := by
  have hmax : gnuosSocketMax = 32 := rfl
  have hbase : gnuosSocketFdBase.toNat = 3 := rfl
  rw [toInt_descriptor (by omega), hbase]
  push_cast
  rfl

theorem toInt_fileDescriptor {i : ℕ} (hi : i < gnuosFileMax) :
    (gnuosFileFdBase + BitVec.ofNat 32 i).toInt = 64 + i := by
  have hmax : gnuosFileMax = 64 := rfl
  have hbase : gnuosFileFdBase.toNat = 64 := rfl
  rw [toInt_descriptor (by omega), hbase]
  push_cast
  rfl

/-- A descriptor from the base on is the base and an index. -/
theorem exists_index {base fd : BitVec 32} (hbase : base.toNat < 2 ^ 31)
    (h : (base.toNat : ℤ) ≤ fd.toInt) :
    ∃ j : ℕ, fd = base + BitVec.ofNat 32 j ∧ fd.toInt = base.toNat + j := by
  have hint := toInt_eq_toNat_cond fd
  have hlt := fd.isLt
  split_ifs at hint with hlow
  swap
  · omega
  have hfd : fd = base + BitVec.ofNat 32 (fd.toNat - base.toNat) := by
    apply eq_of_toNat_eq
    rw [toNat_add, toNat_ofNat, Nat.add_mod_mod, Nat.add_sub_cancel' (by omega),
      Nat.mod_eq_of_lt hlt]
  exact ⟨fd.toNat - base.toNat, hfd, by omega⟩

theorem lookupSlot_of_free {base : BitVec 32} {max i : ℕ} (hmax : max < 2 ^ 31) (hi : i < max)
    (hfree : inUse i = false) :
    lookupSlot base max inUse (base + BitVec.ofNat 32 i) = none := by
  rw [Option.eq_none_iff_forall_ne_some]
  intro j hget
  obtain ⟨hj, huse, heq⟩ := (lookupSlot_eq_some_iff hmax).mp hget
  have hmod := congrArg BitVec.toNat (BitVec.add_right_inj base |>.mp heq)
  rw [toNat_ofNat, toNat_ofNat, Nat.mod_eq_of_lt (by omega),
    Nat.mod_eq_of_lt (by omega)] at hmod
  rw [← hmod, hfree] at huse
  exact Bool.false_ne_true huse

/-- The descriptors of a table before a slot are open if the slots are. -/
theorem lookupSlot_below {base fd : BitVec 32} {max i : ℕ} (hbase : base.toNat < 2 ^ 31)
    (hmax : max < 2 ^ 31) (hi : i < max) (hlow : ∀ j < i, inUse j = true)
    (hfirst : (base.toNat : ℤ) ≤ fd.toInt) (hlt : fd.toInt < base.toNat + i) :
    (lookupSlot base max inUse fd).isSome := by
  obtain ⟨j, hfd, hint⟩ := exists_index hbase hfirst
  have hji : j < i := by omega
  rw [(lookupSlot_eq_some_iff hmax).mpr ⟨hji.trans hi, hlow j hji, hfd⟩, Option.isSome_some]

theorem freeSlot_eq_some_iff {max i : ℕ} :
    freeSlot max inUse = some i ↔
      i < max ∧ inUse i = false ∧ ∀ j < i, inUse j = true := by
  rw [freeSlot, List.find?_range_eq_some]
  simp only [Bool.not_eq_true', Bool.not_not, List.mem_range]
  tauto

end GnuOS.Libc
