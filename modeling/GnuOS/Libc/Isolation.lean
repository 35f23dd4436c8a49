import GnuOS.Libc.Descriptors

/-!
# Isolation of the descriptors

What a call of the libc stub can do to the two tables is said once, as the relation `Effect`: it
fails and stores an error number, answers without a store, takes the first free slot of a table, or
stores in the entry of the descriptor that it was given.  The isolation of the descriptors follows
from that.

`gnuos_file_alloc_fd` leaves eight fields of the `struct stat` as they were.  No call ever stores in
them, so they are still the zeros of the static table, and nothing of an earlier file shows through
a descriptor that is handed out again.
-/

namespace GnuOS.Libc

open Function

/-- The descriptor that a call was given. -/
def LibcCall.descriptor : LibcCall → Option (BitVec 32)
  | .socket .. | .openFile .. => none
  | .bind fd | .listen fd | .accept fd | .connect fd | .send fd _ | .recv fd | .shutdown fd _
  | .close fd | .read fd _ _ | .write fd _ | .lseek fd _ _ | .fstat fd _ | .fchmod fd _ => some fd

/-- The `size_t` count that a call was given. -/
def LibcCall.count : LibcCall → BitVec 64
  | .send _ count | .read _ _ count | .write _ count => count
  | _ => 0#64

/-! ## New entries -/

/-- The entry of a new socket. -/
def SocketEntry.new (domain type protocol : BitVec 32) : SocketEntry where
  inUse := true
  domain := domain
  type := type
  protocol := protocol
  connected := false
  listening := false
  shutdownHow := -1#32

/-- The entry of a new file. -/
def FileEntry.new (flags : BitVec 32) : FileEntry where
  inUse := true
  flags := flags
  mode := regularFileMode
  offset := 0#64
  st := { Stat.zero with stMode := regularFileMode, stNlink := 1#64, stBlksize := 4096#64 }

/-- The five fields that `gnuos_file_alloc_fd` sets, reset to zero. -/
def Stat.rest (st : Stat) : Stat :=
  { st with stMode := 0#32, stSize := 0#64, stNlink := 0#64, stBlksize := 0#64, stBlocks := 0#64 }

/-- The stores of `open` in an entry that `gnuos_file_alloc_fd` has set. -/
theorem allocated_eq_new {e : FileEntry} (h : e.st.rest = Stat.zero) (flags : BitVec 32) :
    { e.allocated with flags := flags } = FileEntry.new flags := by
  simp only [Stat.rest, Stat.zero, Stat.mk.injEq, true_and] at h
  obtain ⟨hdev, hino, huid, hgid, hrdev, hatime, hmtime, hctime⟩ := h
  simp only [FileEntry.allocated, FileEntry.new, Stat.zero, hdev, hino, huid, hgid, hrdev, hatime,
    hmtime, hctime]

/-! ## What a call can do -/

section Effects

variable (s : DescriptorState) (call : LibcCall)

/-- The outcomes of a call in the state `s`. -/
inductive Effect : ℤ × DescriptorState → Prop
  | failed (error : BitVec 32) : Effect (-1, { s with errnoValue := error })
  | answered {fd : BitVec 32} {value : ℤ} (hfd : call.descriptor = some fd)
      (hvalue : call.count.toNat < 2 ^ 63 → 0 ≤ value) : Effect (value, s)
  | openedSocket {domain type protocol : BitVec 32} {i : ℕ}
      (hcall : call = .socket domain type protocol) (hi : i < gnuosSocketMax)
      (hfree : (s.socketTable i).inUse = false) (hlow : ∀ j < i, (s.socketTable j).inUse = true) :
      Effect (3 + i, s.setSocket i (SocketEntry.new domain type protocol))
  | openedFile {pathname : Option (List (BitVec 8))} {flags : BitVec 32} {i : ℕ}
      (hcall : call = .openFile pathname flags) (hi : i < gnuosFileMax)
      (hfree : (s.fileTable i).inUse = false) (hlow : ∀ j < i, (s.fileTable j).inUse = true) :
      Effect (64 + i, s.setFile i { (s.fileTable i).allocated with flags := flags })
  | changedSocket {fd : BitVec 32} {i : ℕ} (e : SocketEntry) (hfd : call.descriptor = some fd)
      (hget : gnuosSocketGet s fd = some i) : Effect (0, s.setSocket i e)
  | changedFile {fd : BitVec 32} {i : ℕ} {value : ℤ} (e : FileEntry)
      (hfd : call.descriptor = some fd) (hget : gnuosFileGet s fd = some i)
      (hrest : e.st.rest = (s.fileTable i).st.rest)
      (hvalue : call.count.toNat < 2 ^ 63 → 0 ≤ value) : Effect (value, s.setFile i e)

end Effects

variable {s : DescriptorState}

theorem signed_gnuosFail {w : ℕ} (hw : 0 < w) (error : BitVec 32) :
    signed (gnuosFail w s error) = (-1, { s with errnoValue := error }) := by
  rw [signed, gnuosFail, BitVec.neg_one_eq_allOnes, BitVec.toInt_allOnes, if_pos hw]

variable {call : LibcCall}

theorem gnuosFail_effect {w : ℕ} (hw : 0 < w) (error : BitVec 32) :
    Effect s call (signed (gnuosFail w s error)) := by
  rw [signed_gnuosFail hw]
  exact .failed error

theorem gnuosFailInt_effect (error : BitVec 32) :
    Effect s call (signed (gnuosFailInt s error)) :=
  gnuosFail_effect (by decide) error

theorem gnuosFailSsize_effect (error : BitVec 32) :
    Effect s call (signed (gnuosFailSsize s error)) :=
  gnuosFail_effect (by decide) error

theorem toInt_nonneg_of_lt {count : BitVec 64} (h : count.toNat < 2 ^ 63) : 0 ≤ count.toInt := by
  rw [BitVec.toInt_eq_toNat_of_lt (by omega)]
  exact Int.natCast_nonneg _

theorem gnuosSocketGet_setSocket {i : ℕ} (hi : i < gnuosSocketMax) {e : SocketEntry}
    (he : e.inUse = true) :
    gnuosSocketGet (s.setSocket i e) (gnuosSocketFdBase + BitVec.ofNat 32 i) = some i := by
  refine gnuosSocketGet_eq_some_iff.mpr ⟨hi, ?_, rfl⟩
  rw [DescriptorState.setSocket_socketTable, update_self, he]

theorem gnuosFileGet_setFile {i : ℕ} (hi : i < gnuosFileMax) {e : FileEntry}
    (he : e.inUse = true) :
    gnuosFileGet (s.setFile i e) (gnuosFileFdBase + BitVec.ofNat 32 i) = some i := by
  refine gnuosFileGet_eq_some_iff.mpr ⟨hi, ?_, rfl⟩
  rw [DescriptorState.setFile_fileTable, update_self, he]

theorem socket_effect (domain type protocol : BitVec 32) :
    Effect s (.socket domain type protocol) (signed (socket s domain type protocol)) := by
  unfold socket gnuosSocketAllocFd
  split_ifs with hdomain htype
  · exact gnuosFailInt_effect gnuosSocketEafnosupport
  · exact gnuosFailInt_effect gnuosSocketEprotonosupport
  cases hslot : freeSlot gnuosSocketMax fun i => (s.socketTable i).inUse with
  | none => simpa using gnuosFailInt_effect gnuosSocketEmfile
  | some i =>
    obtain ⟨hi, hfree, hlow⟩ := freeSlot_eq_some_iff.mp hslot
    have hfd := toInt_socketDescriptor hi
    have hnonneg : ¬(gnuosSocketFdBase + BitVec.ofNat 32 i).toInt < 0 := by omega
    simp only [gnuosSocketGet_setSocket hi, if_neg hnonneg, DescriptorState.setSocket_socketTable,
      update_self, DescriptorState.setSocket_setSocket]
    rw [signed, hfd]
    exact .openedSocket rfl hi hfree hlow

theorem openFile_effect (pathname : Option (List (BitVec 8))) (flags : BitVec 32) :
    Effect s (.openFile pathname flags) (signed (openFile s pathname flags)) := by
  rcases pathname with - | - | ⟨c, path⟩
  · exact gnuosFailInt_effect gnuosPthreadEinval
  · exact gnuosFailInt_effect gnuosPthreadEinval
  rw [openFile, gnuosFileAllocFd]
  by_cases hnul : c = 0#8
  · rw [if_pos hnul]
    exact gnuosFailInt_effect gnuosPthreadEinval
  by_cases hpath : c ≠ 0x2F#8 ∧ c ≠ 0x2E#8
  · rw [if_neg hnul, if_pos hpath]
    exact gnuosFailInt_effect gnuosFileEnoent
  rw [if_neg hnul, if_neg hpath]
  cases hslot : freeSlot gnuosFileMax fun i => (s.fileTable i).inUse with
  | none => simpa using gnuosFailInt_effect gnuosFileEnfile
  | some i =>
    obtain ⟨hi, hfree, hlow⟩ := freeSlot_eq_some_iff.mp hslot
    have hfd := toInt_fileDescriptor hi
    have hnonneg : ¬(gnuosFileFdBase + BitVec.ofNat 32 i).toInt < 0 := by omega
    have hget := gnuosFileGet_setFile (s := s) hi (e := (s.fileTable i).allocated) rfl
    simp only [hget, if_neg hnonneg, DescriptorState.setFile_fileTable, update_self,
      DescriptorState.setFile_setFile]
    -- The size is 0 already, so that `O_TRUNC` makes no difference.
    have htrunc : { (s.fileTable i).allocated with
        flags := flags, st := { (s.fileTable i).allocated.st with stSize := 0#64 } } =
          { (s.fileTable i).allocated with flags := flags } := rfl
    rw [htrunc, ite_self, signed, hfd]
    exact .openedFile rfl hi hfree hlow

theorem bind_effect (fd : BitVec 32) : Effect s (.bind fd) (signed (bind s fd)) := by
  unfold bind
  cases gnuosSocketGet s fd with
  | none => exact gnuosFailInt_effect gnuosSocketEnotsock
  | some i => exact .answered rfl fun _ => le_rfl

theorem listen_effect (fd : BitVec 32) : Effect s (.listen fd) (signed (listen s fd)) := by
  unfold listen
  cases hget : gnuosSocketGet s fd with
  | none => exact gnuosFailInt_effect gnuosSocketEnotsock
  | some i => exact .changedSocket _ rfl hget

theorem accept_effect (fd : BitVec 32) : Effect s (.accept fd) (signed (accept s fd)) := by
  unfold accept
  cases gnuosSocketGet s fd with
  | none => exact gnuosFailInt_effect gnuosSocketEnotsock
  | some i =>
    dsimp only
    split_ifs with hlistening
    · exact gnuosFailInt_effect gnuosSocketEopnotsupp
    · exact gnuosFailInt_effect gnuosPthreadEnosys

theorem connect_effect (fd : BitVec 32) : Effect s (.connect fd) (signed (connect s fd)) := by
  unfold connect
  cases hget : gnuosSocketGet s fd with
  | none => exact gnuosFailInt_effect gnuosSocketEnotsock
  | some i => exact .changedSocket _ rfl hget

theorem send_effect (call : LibcCall) {fd : BitVec 32} (hfd : call.descriptor = some fd) :
    Effect s call (signed (send s fd call.count)) := by
  unfold send
  cases gnuosSocketGet s fd with
  | none => exact gnuosFailSsize_effect gnuosSocketEnotsock
  | some i =>
    dsimp only
    split_ifs with hconnected
    · exact gnuosFailSsize_effect gnuosSocketEopnotsupp
    · exact .answered hfd toInt_nonneg_of_lt

theorem recv_effect {fd : BitVec 32} (hfd : call.descriptor = some fd) :
    Effect s call (signed (recv s fd)) := by
  unfold recv
  cases gnuosSocketGet s fd with
  | none => exact gnuosFailSsize_effect gnuosSocketEnotsock
  | some i =>
    dsimp only
    split_ifs with hconnected
    · exact gnuosFailSsize_effect gnuosSocketEopnotsupp
    · exact .answered hfd fun _ => le_rfl

theorem shutdown_effect (fd how : BitVec 32) :
    Effect s (.shutdown fd how) (signed (shutdown s fd how)) := by
  unfold shutdown
  cases hget : gnuosSocketGet s fd with
  | none => exact gnuosFailInt_effect gnuosSocketEnotsock
  | some i =>
    dsimp only
    split_ifs with hhow
    · exact gnuosFailInt_effect gnuosPthreadEinval
    · exact .changedSocket _ rfl hget

theorem close_effect (fd : BitVec 32) : Effect s (.close fd) (signed (close s fd)) := by
  unfold close
  cases hsocket : gnuosSocketGet s fd with
  | some i => exact .changedSocket _ rfl hsocket
  | none =>
    cases hfile : gnuosFileGet s fd with
    | none => exact gnuosFailInt_effect gnuosFileEbadf
    | some i => exact .changedFile _ rfl hfile rfl fun _ => le_rfl

theorem read_effect (fd : BitVec 32) (buf count : BitVec 64) :
    Effect s (.read fd buf count) (signed (read s fd buf count)) := by
  unfold read
  cases gnuosSocketGet s fd with
  | some i => exact recv_effect rfl
  | none =>
    cases hfile : gnuosFileGet s fd with
    | none => exact gnuosFailSsize_effect gnuosFileEbadf
    | some i =>
      dsimp only
      split_ifs with hbuf
      · exact gnuosFailSsize_effect gnuosPthreadEinval
      · exact .changedFile _ rfl hfile rfl toInt_nonneg_of_lt

theorem write_effect (fd : BitVec 32) (count : BitVec 64) :
    Effect s (.write fd count) (signed (write s fd count)) := by
  unfold write
  cases gnuosSocketGet s fd with
  | some i => exact send_effect (.write fd count) rfl
  | none =>
    cases hfile : gnuosFileGet s fd with
    | none => exact gnuosFailSsize_effect gnuosFileEbadf
    | some i =>
      dsimp only
      split_ifs with hsize
      · exact .changedFile _ rfl hfile rfl toInt_nonneg_of_lt
      · exact .changedFile _ rfl hfile rfl toInt_nonneg_of_lt

theorem lseek_effect (fd : BitVec 32) (offset : BitVec 64) (whence : BitVec 32) :
    Effect s (.lseek fd offset whence) (signed (lseek s fd offset whence)) := by
  unfold lseek
  cases hfile : gnuosFileGet s fd with
  | none => exact gnuosFail_effect (by decide) gnuosFileEbadf
  | some i =>
    dsimp only
    cases (s.fileTable i).seekBase whence with
    | none => exact gnuosFail_effect (by decide) gnuosPthreadEinval
    | some base =>
      dsimp only
      split_ifs with hneg
      · exact gnuosFail_effect (by decide) gnuosPthreadEinval
      · exact .changedFile _ rfl hfile rfl fun _ => not_lt.mp hneg

theorem fstat_effect (fd : BitVec 32) (buf : BitVec 64) :
    Effect s (.fstat fd buf) (signed (fstat s fd buf).1) := by
  unfold fstat
  split_ifs with hbuf
  · exact gnuosFailInt_effect gnuosPthreadEinval
  cases gnuosFileGet s fd with
  | none => exact gnuosFailInt_effect gnuosFileEbadf
  | some i => exact .answered rfl fun _ => le_rfl

theorem fchmod_effect (fd mode : BitVec 32) :
    Effect s (.fchmod fd mode) (signed (fchmod s fd mode)) := by
  unfold fchmod
  cases hget : gnuosFileGet s fd with
  | none => exact gnuosFailInt_effect gnuosFileEbadf
  | some i => exact .changedFile _ rfl hget rfl fun _ => le_rfl

/-- Every call has one of the outcomes. -/
theorem runCall_effect (s : DescriptorState) (call : LibcCall) :
    Effect s call (runCall s call) := by
  cases call with
  | socket domain type protocol => exact socket_effect domain type protocol
  | bind fd => exact bind_effect fd
  | listen fd => exact listen_effect fd
  | accept fd => exact accept_effect fd
  | connect fd => exact connect_effect fd
  | send fd len => exact send_effect (.send fd len) rfl
  | recv fd => exact recv_effect rfl
  | shutdown fd how => exact shutdown_effect fd how
  | openFile pathname flags => exact openFile_effect pathname flags
  | close fd => exact close_effect fd
  | read fd buf count => exact read_effect fd buf count
  | write fd count => exact write_effect fd count
  | lseek fd offset whence => exact lseek_effect fd offset whence
  | fstat fd buf => exact fstat_effect fd buf
  | fchmod fd mode => exact fchmod_effect fd mode

/-! ## Runs -/

/-- No call has stored in the fields of a `struct stat` that `gnuos_file_alloc_fd` leaves alone. -/
def RestZero (s : DescriptorState) : Prop := ∀ i, (s.fileTable i).st.rest = Stat.zero

theorem RestZero.setFile (h : RestZero s) {i : ℕ} {e : FileEntry}
    (he : e.st.rest = (s.fileTable i).st.rest) : RestZero (s.setFile i e) := by
  intro j
  rw [DescriptorState.setFile_fileTable, update_apply]
  split_ifs with hj
  · rw [he]
    exact h i
  · exact h j

theorem RestZero.step (h : RestZero s) (call : LibcCall) : RestZero (runCall s call).2 := by
  have heffect := runCall_effect s call
  generalize runCall s call = r at heffect
  cases heffect with
  | failed error => exact h
  | answered hfd hvalue => exact h
  | openedSocket hcall hi hfree hlow => exact h
  | openedFile hcall hi hfree hlow => exact h.setFile rfl
  | changedSocket e hfd hget => exact h
  | changedFile e hfd hget hrest hvalue => exact h.setFile hrest

theorem restZero_runCalls (calls : List LibcCall) : RestZero (runCalls calls) := by
  induction calls using List.reverseRecOn with
  | nil => exact fun i => rfl
  | append_singleton calls call ih =>
    rw [runCalls_concat]
    exact ih.step call

/-! ## Isolation -/

/-- A socket or a file is open at the descriptor. -/
def IsOpen (s : DescriptorState) (fd : BitVec 32) : Prop :=
  (gnuosSocketGet s fd).isSome ∨ (gnuosFileGet s fd).isSome

/-- The lowest descriptor from `first` on at which nothing is open. -/
structure LowestFree (s : DescriptorState) (first : ℤ) (fd : BitVec 32) : Prop where
  first_le : first ≤ fd.toInt
  closed : ¬IsOpen s fd
  below : ∀ fd' : BitVec 32, first ≤ fd'.toInt → fd'.toInt < fd.toInt → IsOpen s fd'

/-- The descriptor that a call is about: the one that it was given or, for `socket` and `open`, the
one that it returned. -/
def LibcCall.subject (call : LibcCall) (value : ℤ) : ℤ :=
  match call.descriptor with
  | some fd => fd.toInt
  | none => value

/-- A call that returned `value` and led from `s` to `s'` kept the descriptors apart. -/
structure Isolated (s : DescriptorState) (call : LibcCall) (value : ℤ) (s' : DescriptorState) :
    Prop where
  /-- A new socket shows nothing but the arguments of the call. -/
  newSocket : ∀ domain type protocol, call = .socket domain type protocol → value ≠ -1 →
    ∃ fd : BitVec 32, value = fd.toInt ∧ fd.toInt ≤ 34 ∧ LowestFree s 3 fd ∧
      (gnuosSocketGet s' fd).map s'.socketTable = some (SocketEntry.new domain type protocol)
  newFile : ∀ pathname flags, call = .openFile pathname flags → value ≠ -1 →
    ∃ fd : BitVec 32, value = fd.toInt ∧ fd.toInt ≤ 127 ∧ LowestFree s 64 fd ∧
      (gnuosFileGet s' fd).map s'.fileTable = some (FileEntry.new flags)
  socketRange : ∀ fd, (gnuosSocketGet s' fd).isSome → 3 ≤ fd.toInt ∧ fd.toInt ≤ 34
  fileRange : ∀ fd, (gnuosFileGet s' fd).isSome → 64 ≤ fd.toInt ∧ fd.toInt ≤ 127
  otherSockets : ∀ i < gnuosSocketMax, call.subject value ≠ 3 + i →
    s'.socketTable i = s.socketTable i
  otherFiles : ∀ i < gnuosFileMax, call.subject value ≠ 64 + i → s'.fileTable i = s.fileTable i
  failed : call.count.toNat < 2 ^ 63 → value = -1 →
    s'.socketTable = s.socketTable ∧ s'.fileTable = s.fileTable

theorem socket_range (s : DescriptorState) (fd : BitVec 32) (h : (gnuosSocketGet s fd).isSome) :
    3 ≤ fd.toInt ∧ fd.toInt ≤ 34 := by
  obtain ⟨i, hget⟩ := Option.isSome_iff_exists.mp h
  obtain ⟨hi, -, rfl⟩ := gnuosSocketGet_eq_some_iff.mp hget
  have hmax : gnuosSocketMax = 32 := rfl
  rw [toInt_socketDescriptor hi]
  omega

theorem file_range (s : DescriptorState) (fd : BitVec 32) (h : (gnuosFileGet s fd).isSome) :
    64 ≤ fd.toInt ∧ fd.toInt ≤ 127 := by
  obtain ⟨i, hget⟩ := Option.isSome_iff_exists.mp h
  obtain ⟨hi, -, rfl⟩ := gnuosFileGet_eq_some_iff.mp hget
  have hmax : gnuosFileMax = 64 := rfl
  rw [toInt_fileDescriptor hi]
  omega

theorem lowestFree_socket {i : ℕ} (hi : i < gnuosSocketMax)
    (hfree : (s.socketTable i).inUse = false) (hlow : ∀ j < i, (s.socketTable j).inUse = true) :
    LowestFree s 3 (gnuosSocketFdBase + BitVec.ofNat 32 i) := by
  have hfd := toInt_socketDescriptor hi
  have hmax : gnuosSocketMax = 32 := rfl
  have hclosed : gnuosSocketGet s (gnuosSocketFdBase + BitVec.ofNat 32 i) = none :=
    lookupSlot_of_free (by decide) hi hfree
  refine ⟨by omega, ?_, ?_⟩
  · rintro (hopen | hopen)
    · rw [hclosed] at hopen
      exact Bool.false_ne_true hopen
    · -- the files begin at 64
      have := file_range s _ hopen
      omega
  · intro fd' hfirst hlt
    rw [hfd] at hlt
    exact .inl (lookupSlot_below (by decide) (by decide) hi hlow hfirst hlt)

theorem lowestFree_file {i : ℕ} (hi : i < gnuosFileMax)
    (hfree : (s.fileTable i).inUse = false) (hlow : ∀ j < i, (s.fileTable j).inUse = true) :
    LowestFree s 64 (gnuosFileFdBase + BitVec.ofNat 32 i) := by
  have hfd := toInt_fileDescriptor hi
  have hclosed : gnuosFileGet s (gnuosFileFdBase + BitVec.ofNat 32 i) = none :=
    lookupSlot_of_free (by decide) hi hfree
  refine ⟨by omega, ?_, ?_⟩
  · rintro (hopen | hopen)
    · -- the sockets end at 34
      have := socket_range s _ hopen
      omega
    · rw [hclosed] at hopen
      exact Bool.false_ne_true hopen
  · intro fd' hfirst hlt
    rw [hfd] at hlt
    exact .inr (lookupSlot_below (by decide) (by decide) hi hlow hfirst hlt)

namespace Effect

variable {call : LibcCall} {r : ℤ × DescriptorState}

section

variable (h : Effect s call r)

include h

theorem new_socket {domain type protocol : BitVec 32} (hcall : call = .socket domain type protocol)
    (hvalue : r.1 ≠ -1) :
    ∃ fd : BitVec 32, r.1 = fd.toInt ∧ fd.toInt ≤ 34 ∧ LowestFree s 3 fd ∧
      (gnuosSocketGet r.2 fd).map r.2.socketTable =
        some (SocketEntry.new domain type protocol) := by
  subst hcall
  cases h with
  | failed error => exact absurd rfl hvalue
  | answered hfd => cases hfd
  | @openedSocket _ _ _ i hcall hi hfree hlow =>
    cases hcall
    have hfd := toInt_socketDescriptor hi
    have hmax : gnuosSocketMax = 32 := rfl
    refine ⟨gnuosSocketFdBase + BitVec.ofNat 32 i, hfd.symm, by omega,
      lowestFree_socket hi hfree hlow, ?_⟩
    rw [gnuosSocketGet_setSocket hi rfl, Option.map_some, DescriptorState.setSocket_socketTable,
      update_self]
  | openedFile hcall => cases hcall
  | changedSocket _ hfd => cases hfd
  | changedFile _ hfd => cases hfd

theorem new_file (hrest : RestZero s) {pathname : Option (List (BitVec 8))} {flags : BitVec 32}
    (hcall : call = .openFile pathname flags) (hvalue : r.1 ≠ -1) :
    ∃ fd : BitVec 32, r.1 = fd.toInt ∧ fd.toInt ≤ 127 ∧ LowestFree s 64 fd ∧
      (gnuosFileGet r.2 fd).map r.2.fileTable = some (FileEntry.new flags) := by
  subst hcall
  cases h with
  | failed error => exact absurd rfl hvalue
  | answered hfd => cases hfd
  | openedSocket hcall => cases hcall
  | @openedFile _ _ i hcall hi hfree hlow =>
    cases hcall
    have hfd := toInt_fileDescriptor hi
    have hmax : gnuosFileMax = 64 := rfl
    -- what the allocator does not set is zero in every entry
    rw [allocated_eq_new (hrest i)]
    refine ⟨gnuosFileFdBase + BitVec.ofNat 32 i, hfd.symm, by omega,
      lowestFree_file hi hfree hlow, ?_⟩
    rw [gnuosFileGet_setFile hi rfl, Option.map_some, DescriptorState.setFile_fileTable,
      update_self]
  | changedSocket _ hfd => cases hfd
  | changedFile _ hfd => cases hfd

/-- A call stores in the entry of its own descriptor at most. -/
theorem other_entries {j : ℕ} :
    (call.subject r.1 ≠ 3 + j → r.2.socketTable j = s.socketTable j) ∧
      (call.subject r.1 ≠ 64 + j → r.2.fileTable j = s.fileTable j) := by
  cases h with
  | failed error => exact ⟨fun _ => rfl, fun _ => rfl⟩
  | answered hfd hvalue => exact ⟨fun _ => rfl, fun _ => rfl⟩
  | openedSocket hcall hi hfree hlow =>
    subst hcall
    refine ⟨fun hj => update_of_ne ?_ _ _, fun _ => rfl⟩
    rintro rfl
    exact hj rfl
  | openedFile hcall hi hfree hlow =>
    subst hcall
    refine ⟨fun _ => rfl, fun hj => update_of_ne ?_ _ _⟩
    rintro rfl
    exact hj rfl
  | changedSocket e hfd hget =>
    obtain ⟨hi, -, rfl⟩ := gnuosSocketGet_eq_some_iff.mp hget
    rw [LibcCall.subject, hfd]
    refine ⟨fun hj => update_of_ne ?_ _ _, fun _ => rfl⟩
    rintro rfl
    exact hj (toInt_socketDescriptor hi)
  | changedFile e hfd hget hrest hvalue =>
    obtain ⟨hi, -, rfl⟩ := gnuosFileGet_eq_some_iff.mp hget
    rw [LibcCall.subject, hfd]
    refine ⟨fun _ => rfl, fun hj => update_of_ne ?_ _ _⟩
    rintro rfl
    exact hj (toInt_fileDescriptor hi)

theorem failed_keeps (hcount : call.count.toNat < 2 ^ 63) (hvalue : r.1 = -1) :
    r.2.socketTable = s.socketTable ∧ r.2.fileTable = s.fileTable := by
  cases h with
  | failed error => exact ⟨rfl, rfl⟩
  | answered hfd hanswer => exact ⟨rfl, rfl⟩
  | openedSocket hcall hi hfree hlow =>
    dsimp only at hvalue
    omega
  | openedFile hcall hi hfree hlow =>
    dsimp only at hvalue
    omega
  | changedSocket e hfd hget =>
    dsimp only at hvalue
    omega
  | changedFile e hfd hget hrest hanswer =>
    -- the count is the result, and a small one is not negative
    have := hanswer hcount
    dsimp only at hvalue
    omega

end

end Effect

/-- Over every run of the calls: a new descriptor is the lowest closed one of its class and shows
nothing of what was open there before; sockets and files are at different descriptors; a call
changes the entry of its own descriptor at most; and a call that fails changes no entry. -/
theorem descriptors_isolated (calls : List LibcCall) (call : LibcCall) :
    Isolated (runCalls calls) call (runCall (runCalls calls) call).1
      (runCall (runCalls calls) call).2 := by
  have heffect := runCall_effect (runCalls calls) call
  exact
    { newSocket := fun _ _ _ hcall => heffect.new_socket hcall
      newFile := fun _ _ hcall => heffect.new_file (restZero_runCalls calls) hcall
      socketRange := socket_range _
      fileRange := file_range _
      otherSockets := fun _ _ => heffect.other_entries.1
      otherFiles := fun _ _ => heffect.other_entries.2
      failed := heffect.failed_keeps }

end GnuOS.Libc
