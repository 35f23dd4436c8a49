import GnuOS.Libc.Isolation

/-!
# File offsets of the libc stub

`read` and `write` add their count to the offset of the file without a check, and return the count
as a signed number.  A count of `2 ^ 63` or more is returned as a negative value, although the
offset has changed and no error number was stored; and a sum of `2 ^ 63` or more leaves the file at
a negative offset.  `lseek` does check its result.

A run of the file calls is sane exactly when the offset plus the count stays below `2 ^ 63` at every
`read` and `write` of an open file.
-/

namespace GnuOS.Libc

open BitVec Function

/-! ## Runs of the file calls -/

inductive FileCall
  | openFile (pathname : Option (List (BitVec 8))) (flags : BitVec 32)
  | close (fd : BitVec 32)
  | read (fd : BitVec 32) (buf count : BitVec 64)
  | write (fd : BitVec 32) (count : BitVec 64)
  | lseek (fd : BitVec 32) (offset : BitVec 64) (whence : BitVec 32)
  | fstat (fd : BitVec 32) (buf : BitVec 64)
  deriving DecidableEq, Repr

namespace FileCall

def call : FileCall → LibcCall
  | openFile pathname flags => .openFile pathname flags
  | close fd => .close fd
  | read fd buf count => .read fd buf count
  | write fd count => .write fd count
  | lseek fd offset whence => .lseek fd offset whence
  | fstat fd buf => .fstat fd buf

/-- The descriptor of a `read`, a `write` or an `lseek`. -/
def moves : FileCall → Option (BitVec 32)
  | read fd _ _ | write fd _ | lseek fd _ _ => some fd
  | _ => none

end FileCall

/-- The globals after a run of file calls from the start of the program. -/
def runFileCalls (calls : List FileCall) : DescriptorState := runCalls (calls.map FileCall.call)

theorem runFileCalls_concat (calls : List FileCall) (call : FileCall) :
    runFileCalls (calls ++ [call]) = (runCall (runFileCalls calls) call.call).2 := by
  rw [runFileCalls, List.map_append, List.map_singleton, runCalls_concat, runFileCalls]

/-! ## Sane calls -/

/-- The offset and the size of every open file are not negative. -/
def SaneFiles (s : DescriptorState) : Prop :=
  ∀ i < gnuosFileMax, (s.fileTable i).inUse = true →
    0 ≤ (s.fileTable i).offset.toInt ∧ 0 ≤ (s.fileTable i).st.stSize.toInt

/-- The call stores an error number, whatever was there before. -/
def SetsErrno (s : DescriptorState) (call : LibcCall) : Prop :=
  ∃ error ≠ 0#32, ∀ old, (runCall { s with errnoValue := old } call).2.errnoValue = error

structure CallSane (s : DescriptorState) (call : FileCall) : Prop where
  files : SaneFiles (runCall s call.call).2
  written : ∀ fd count i, call = .write fd count →
    gnuosFileGet (runCall s call.call).2 fd = some i →
      ((runCall s call.call).2.fileTable i).offset.toInt ≤
        ((runCall s call.call).2.fileTable i).st.stSize.toInt
  /-- A negative result comes with an error number and an unchanged file. -/
  failed : ∀ fd, call.moves = some fd → (runCall s call.call).1 < 0 →
    SetsErrno s call.call ∧
      ∀ i, gnuosFileGet s fd = some i →
        ((runCall s call.call).2.fileTable i).offset = (s.fileTable i).offset ∧
          ((runCall s call.call).2.fileTable i).st.stSize = (s.fileTable i).st.stSize

/-- Every call of the run is sane in the state in which it is made. -/
def RunSane (calls : List FileCall) : Prop :=
  ∀ pre call post, calls = pre ++ call :: post → CallSane (runFileCalls pre) call

/-- The offset that a `read` or a `write` of an open file moves to is a positive `off_t`. -/
def FileCall.InRange (s : DescriptorState) : FileCall → Prop
  | .read fd buf count => ∀ i, gnuosFileGet s fd = some i → ¬(buf = 0#64 ∧ count ≠ 0#64) →
      (s.fileTable i).offset.toNat + count.toNat < 2 ^ 63
  | .write fd count => ∀ i, gnuosFileGet s fd = some i →
      (s.fileTable i).offset.toNat + count.toNat < 2 ^ 63
  | _ => True

/-! ## No sockets -/

/-- No socket is open. -/
def NoSockets (s : DescriptorState) : Prop := ∀ fd, gnuosSocketGet s fd = none

variable {s : DescriptorState}

theorem NoSockets.step (h : NoSockets s) (call : FileCall) :
    NoSockets (runCall s call.call).2 := by
  have heffect := runCall_effect s call.call
  generalize runCall s call.call = r at heffect
  cases heffect with
  | failed error => exact h
  | answered hfd hvalue => exact h
  -- none of the file calls is `socket`
  | openedSocket hcall hi hfree hlow => cases call <;> cases hcall
  | openedFile hcall hi hfree hlow => exact h
  | @changedSocket fd i e hfd hget =>
    rw [h fd] at hget
    cases hget
  | changedFile e hfd hget hrest hvalue => exact h

theorem noSockets_runFileCalls (calls : List FileCall) : NoSockets (runFileCalls calls) := by
  induction calls using List.reverseRecOn with
  | nil =>
    intro fd
    rw [Option.eq_none_iff_forall_ne_some]
    intro i hget
    exact Bool.false_ne_true (gnuosSocketGet_eq_some_iff.mp hget).2.1
  | append_singleton calls call ih =>
    rw [runFileCalls_concat]
    exact ih.step call

/-! ## The outcomes of the calls that move the offset -/

/-- The stores of `write` in the entry of the file. -/
def FileEntry.written (e : FileEntry) (count : BitVec 64) : FileEntry :=
  { e with
    offset := e.offset + count
    st := { e.st with
      stSize := if e.st.stSize.toInt < (e.offset + count).toInt then e.offset + count
        else e.st.stSize } }

section Outcomes

variable {fd : BitVec 32} {i : ℕ} {buf count : BitVec 64}

section

variable (h : NoSockets s)

include h

theorem read_closed (hget : gnuosFileGet s fd = none) :
    runCall s (FileCall.read fd buf count).call =
      (-1, { s with errnoValue := gnuosFileEbadf }) := by
  rw [FileCall.call, runCall, read, h fd, hget]
  exact signed_gnuosFail (by decide) gnuosFileEbadf

theorem read_null (hget : gnuosFileGet s fd = some i) (hbuf : buf = 0#64 ∧ count ≠ 0#64) :
    runCall s (FileCall.read fd buf count).call =
      (-1, { s with errnoValue := gnuosPthreadEinval }) := by
  rw [FileCall.call, runCall, read, h fd, hget]
  dsimp only
  rw [if_pos hbuf]
  exact signed_gnuosFail (by decide) gnuosPthreadEinval

theorem read_file (hget : gnuosFileGet s fd = some i) (hbuf : ¬(buf = 0#64 ∧ count ≠ 0#64)) :
    runCall s (FileCall.read fd buf count).call =
      (count.toInt,
        s.setFile i { s.fileTable i with offset := (s.fileTable i).offset + count }) := by
  rw [FileCall.call, runCall, read, h fd, hget]
  dsimp only
  rw [if_neg hbuf, signed]

theorem write_closed (hget : gnuosFileGet s fd = none) :
    runCall s (FileCall.write fd count).call = (-1, { s with errnoValue := gnuosFileEbadf }) := by
  rw [FileCall.call, runCall, write, h fd, hget]
  exact signed_gnuosFail (by decide) gnuosFileEbadf

theorem write_file (hget : gnuosFileGet s fd = some i) (count : BitVec 64) :
    runCall s (FileCall.write fd count).call =
      (count.toInt, s.setFile i ((s.fileTable i).written count)) := by
  rw [FileCall.call, runCall, write, h fd, hget, FileEntry.written]
  dsimp only
  split_ifs with hsize
  · rw [signed]
  · rw [signed]

end

end Outcomes

theorem SaneFiles.setFile (h : SaneFiles s) {i : ℕ} {e : FileEntry}
    (he : e.inUse = true → 0 ≤ e.offset.toInt ∧ 0 ≤ e.st.stSize.toInt) :
    SaneFiles (s.setFile i e) := by
  intro j hj
  rw [DescriptorState.setFile_fileTable, update_apply]
  split_ifs with hji
  · exact he
  · exact h j hj

/-- In 64-bit two's complement, a count from a position that is not negative stays below `2 ^ 63`
exactly if neither it nor the sum reads as a negative number. -/
theorem add_lt_iff {offset count : BitVec 64} (h : 0 ≤ offset.toInt) :
    offset.toNat + count.toNat < 2 ^ 63 ↔ 0 ≤ count.toInt ∧ 0 ≤ (offset + count).toInt := by
  have hoffset := toInt_eq_toNat_cond offset
  have hcount := toInt_eq_toNat_cond count
  have hsum := toInt_eq_toNat_cond (offset + count)
  have hlt := offset.isLt
  have hlt' := count.isLt
  -- the sum of two words below `2 ^ 63` does not wrap in 64 bits, only in its sign
  rw [toNat_add] at hsum
  split_ifs at hoffset hcount hsum <;> omega

/-- A call that stores an error number and nothing else is sane. -/
theorem CallSane.of_failed (hs : SaneFiles s) {call : FileCall} (error : BitVec 32)
    (herror : error ≠ 0#32)
    (hwrite : ∀ fd count, call = .write fd count → gnuosFileGet s fd = none)
    (h : ∀ old, runCall { s with errnoValue := old } call.call =
      (-1, { s with errnoValue := error })) : CallSane s call := by
  have hcall : runCall s call.call = (-1, { s with errnoValue := error }) := h s.errnoValue
  refine ⟨?_, ?_, ?_⟩
  · rw [hcall]
    exact hs
  · intro fd count i hc hget
    have hclosed : gnuosFileGet { s with errnoValue := error } fd = none := hwrite fd count hc
    rw [hcall, hclosed] at hget
    cases hget
  · intro fd _ _
    refine ⟨⟨error, herror, fun old => by rw [h old]⟩, fun i _ => ?_⟩
    rw [hcall]
    exact ⟨rfl, rfl⟩

/-- A call that is no `read`, `write` or `lseek` is judged by the files that it leaves. -/
theorem CallSane.of_files {call : FileCall} (hmoves : call.moves = none)
    (h : SaneFiles (runCall s call.call).2) : CallSane s call := by
  refine ⟨h, ?_, ?_⟩
  · rintro fd count i rfl
    cases hmoves
  · intro fd hfd
    rw [hmoves] at hfd
    cases hfd

section

variable (hs : SaneFiles s)

include hs

theorem openFile_sane (pathname : Option (List (BitVec 8))) (flags : BitVec 32) :
    CallSane s (.openFile pathname flags) := by
  apply CallSane.of_files rfl
  have heffect := runCall_effect s (FileCall.openFile pathname flags).call
  generalize runCall s (FileCall.openFile pathname flags).call = r at heffect
  cases heffect with
  | failed error => exact hs
  | answered hfd => cases hfd
  | openedSocket hcall => cases hcall
  | openedFile hcall hi hfree hlow => exact hs.setFile fun _ => ⟨le_rfl, le_rfl⟩
  | changedSocket e hfd => cases hfd
  | changedFile e hfd => cases hfd

theorem close_sane (h : NoSockets s) (fd : BitVec 32) :
    CallSane s (.close fd) := by
  apply CallSane.of_files rfl
  rw [FileCall.call, runCall, close, h fd]
  cases gnuosFileGet s fd with
  | none => exact hs
  | some i => exact hs.setFile fun huse => absurd huse Bool.false_ne_true

theorem fstat_sane (fd : BitVec 32) (buf : BitVec 64) :
    CallSane s (.fstat fd buf) := by
  apply CallSane.of_files rfl
  rw [FileCall.call, runCall, fstat]
  split_ifs with hbuf
  · exact hs
  cases gnuosFileGet s fd with
  | none => exact hs
  | some i => exact hs

theorem SaneFiles.of_get {fd : BitVec 32} {i : ℕ} (hget : gnuosFileGet s fd = some i) :
    0 ≤ (s.fileTable i).offset.toInt ∧ 0 ≤ (s.fileTable i).st.stSize.toInt := by
  obtain ⟨hi, huse, -⟩ := gnuosFileGet_eq_some_iff.mp hget
  exact hs i hi huse

theorem lseek_sane (fd : BitVec 32) (offset : BitVec 64) (whence : BitVec 32) :
    CallSane s (.lseek fd offset whence) := by
  have hrefused (error : BitVec 32) (herror : error ≠ 0#32)
      (h : ∀ old, lseek { s with errnoValue := old } fd offset whence =
        gnuosFailOff { s with errnoValue := old } error) :
      CallSane s (.lseek fd offset whence) := by
    refine CallSane.of_failed hs error herror ?_ fun old => ?_
    · intro fd' count' hwrite
      cases hwrite
    · rw [FileCall.call, runCall, h old]
      exact signed_gnuosFail (by decide) error
  cases hget : gnuosFileGet s fd with
  | none =>
    refine hrefused gnuosFileEbadf (by decide) fun old => ?_
    have hget' : gnuosFileGet { s with errnoValue := old } fd = none := hget
    rw [lseek, hget']
  | some i =>
    cases hbase : (s.fileTable i).seekBase whence with
    | none =>
      refine hrefused gnuosPthreadEinval (by decide) fun old => ?_
      have hget' : gnuosFileGet { s with errnoValue := old } fd = some i := hget
      simp only [lseek, hget', hbase]
    | some base =>
      by_cases hneg : (base + offset).toInt < 0
      · refine hrefused gnuosPthreadEinval (by decide) fun old => ?_
        have hget' : gnuosFileGet { s with errnoValue := old } fd = some i := hget
        simp only [lseek, hget', hbase, if_pos hneg]
      · have hcall : runCall s (FileCall.lseek fd offset whence).call =
            ((base + offset).toInt,
              s.setFile i { s.fileTable i with offset := base + offset }) := by
          simp only [FileCall.call, runCall, lseek, hget, hbase, if_neg hneg, signed]
        refine ⟨?_, ?_, ?_⟩
        · rw [hcall]
          exact hs.setFile fun _ => ⟨not_lt.mp hneg, (hs.of_get hget).2⟩
        · intro fd' count' j hwrite
          cases hwrite
        · intro fd' _ hvalue
          rw [hcall] at hvalue
          exact absurd hvalue hneg

end

/-! ## Reads and writes -/

section Moved

-- A call that adds its count to the offset of an open file and returns the count.
variable {call : FileCall} {fd : BitVec 32} {i : ℕ} {count : BitVec 64} {e : FileEntry}
  (hget : gnuosFileGet s fd = some i) (hcall : runCall s call.call = (count.toInt, s.setFile i e))

include hget hcall

theorem count_nonneg_of_sane (hmoves : call.moves = some fd)
    (he : e.offset = (s.fileTable i).offset + count) (hsane : CallSane s call) :
    0 ≤ count.toInt := by
  by_contra hneg
  have hvalue : (runCall s call.call).1 < 0 := by
    rw [hcall]
    exact not_le.mp hneg
  have hkept := (hsane.failed fd hmoves hvalue).2 i hget
  rw [hcall, DescriptorState.setFile_fileTable, update_self, he] at hkept
  -- the offset is where it was although the count was added to it
  have hzero : count = 0#64 := BitVec.add_right_eq_self.mp hkept.1
  rw [hzero] at hneg
  exact hneg le_rfl

variable (huse : e.inUse = true)

include huse

theorem offset_nonneg_of_sane (hsane : CallSane s call) : 0 ≤ e.offset.toInt := by
  have hfiles := hsane.files i (gnuosFileGet_eq_some_iff.mp hget).1
  rw [hcall, DescriptorState.setFile_fileTable, update_self] at hfiles
  exact (hfiles huse).1

variable (hs : SaneFiles s) (hmoves : call.moves = some fd)
  (hwritten : ∀ fd count, call = .write fd count → e.offset.toInt ≤ e.st.stSize.toInt)

include hs hmoves hwritten

theorem sane_of_nonneg (hcount : 0 ≤ count.toInt) (hoffset : 0 ≤ e.offset.toInt)
    (hsize : 0 ≤ e.st.stSize.toInt) : CallSane s call := by
  have hget' : gnuosFileGet (s.setFile i e) fd = some i := by
    obtain ⟨hi, -, rfl⟩ := gnuosFileGet_eq_some_iff.mp hget
    exact gnuosFileGet_setFile hi huse
  refine ⟨?_, ?_, ?_⟩
  · rw [hcall]
    exact hs.setFile fun _ => ⟨hoffset, hsize⟩
  · intro fd' count' j hc hget''
    have hfd : fd' = fd := by
      rw [hc] at hmoves
      exact Option.some.inj hmoves
    rw [hcall, hfd, hget', Option.some.injEq] at hget''
    rw [hcall, ← hget'', DescriptorState.setFile_fileTable, update_self]
    exact hwritten fd' count' hc
  · intro fd' _ hvalue
    rw [hcall] at hvalue
    exact absurd hcount (not_le.mpr hvalue)

theorem sane_iff_of_moved (he : e.offset = (s.fileTable i).offset + count)
    (hsize : 0 ≤ e.offset.toInt → 0 ≤ e.st.stSize.toInt) :
    CallSane s call ↔ (s.fileTable i).offset.toNat + count.toNat < 2 ^ 63 := by
  rw [add_lt_iff (hs.of_get hget).1, ← he]
  constructor
  · intro hsane
    exact ⟨count_nonneg_of_sane hget hcall hmoves he hsane,
      offset_nonneg_of_sane hget hcall huse hsane⟩
  · rintro ⟨hcount, hoffset⟩
    exact sane_of_nonneg hget hcall huse hs hmoves hwritten hcount hoffset (hsize hoffset)

end Moved

theorem read_sane_iff (hs : SaneFiles s) (h : NoSockets s) (fd : BitVec 32)
    (buf count : BitVec 64) :
    CallSane s (.read fd buf count) ↔ (FileCall.read fd buf count).InRange s := by
  cases hget : gnuosFileGet s fd with
  | none =>
    exact iff_of_true (CallSane.of_failed hs gnuosFileEbadf (by decide) nofun
      fun old => read_closed (s := { s with errnoValue := old }) h hget)
      (by simp [FileCall.InRange, hget])
  | some i =>
    simp only [FileCall.InRange, hget, Option.some.injEq, forall_eq']
    by_cases hbuf : buf = 0#64 ∧ count ≠ 0#64
    · exact iff_of_true (CallSane.of_failed hs gnuosPthreadEinval (by decide) nofun
        fun old => read_null (s := { s with errnoValue := old }) h hget hbuf) (absurd hbuf)
    have huse := (gnuosFileGet_eq_some_iff.mp hget).2.1
    have hsize := (hs.of_get hget).2
    rw [sane_iff_of_moved hget (read_file h hget hbuf) huse hs rfl nofun rfl fun _ => hsize]
    exact (imp_iff_right hbuf).symm

theorem written_offset_le (e : FileEntry) (count : BitVec 64) :
    (e.written count).offset.toInt ≤ (e.written count).st.stSize.toInt := by
  simp only [FileEntry.written]
  split_ifs with hsize
  · exact le_rfl
  · exact not_lt.mp hsize

theorem write_sane_iff (hs : SaneFiles s) (h : NoSockets s) (fd : BitVec 32) (count : BitVec 64) :
    CallSane s (.write fd count) ↔ (FileCall.write fd count).InRange s := by
  cases hget : gnuosFileGet s fd with
  | none =>
    refine iff_of_true (CallSane.of_failed hs gnuosFileEbadf (by decide) ?_
      fun old => write_closed (s := { s with errnoValue := old }) h hget)
      (by simp [FileCall.InRange, hget])
    rintro fd' count' ⟨⟩
    exact hget
  | some i =>
    simp only [FileCall.InRange, hget, Option.some.injEq, forall_eq']
    have huse := (gnuosFileGet_eq_some_iff.mp hget).2.1
    have hle := written_offset_le (s.fileTable i) count
    exact sane_iff_of_moved hget (write_file h hget count) huse hs rfl (fun _ _ _ => hle) rfl
      fun hoffset => le_trans hoffset hle

/-- From sane files, a call is sane exactly if it is in range. -/
theorem callSane_iff (hs : SaneFiles s) (h : NoSockets s) (call : FileCall) :
    CallSane s call ↔ call.InRange s := by
  cases call with
  | openFile pathname flags => exact iff_of_true (openFile_sane hs pathname flags) trivial
  | close fd => exact iff_of_true (close_sane hs h fd) trivial
  | read fd buf count => exact read_sane_iff hs h fd buf count
  | write fd count => exact write_sane_iff hs h fd count
  | lseek fd offset whence => exact iff_of_true (lseek_sane hs fd offset whence) trivial
  | fstat fd buf => exact iff_of_true (fstat_sane hs fd buf) trivial

/-! ## Runs -/

/-- The files stay sane along a run whose calls are sane or in range. -/
theorem saneFiles_runFileCalls {calls : List FileCall}
    (h : ∀ pre call post, calls = pre ++ call :: post →
      CallSane (runFileCalls pre) call ∨ call.InRange (runFileCalls pre)) :
    SaneFiles (runFileCalls calls) := by
  -- induction on the last call: the ones before it are a run of the same kind
  induction calls using List.reverseRecOn with
  | nil => exact fun i _ huse => absurd huse Bool.false_ne_true
  | append_singleton calls call ih =>
    have hs : SaneFiles (runFileCalls calls) := by
      apply ih
      intro pre call' post hcalls
      apply h pre call' (post ++ [call])
      rw [hcalls, List.append_assoc, List.cons_append]
    rw [runFileCalls_concat]
    rcases h calls call [] rfl with hsane | hrange
    · exact hsane.files
    · exact ((callSane_iff hs (noSockets_runFileCalls calls) call).mpr hrange).files

/-- A run of the file calls keeps the offsets and sizes sane, with an error number and an unchanged
file at every negative result, exactly if the offset plus the count is below `2 ^ 63` at every
`read` and `write` of an open file. -/
theorem file_run_sane_iff (calls : List FileCall) :
    RunSane calls ↔
      ∀ pre call post, calls = pre ++ call :: post → call.InRange (runFileCalls pre) := by
  constructor
  · intro hsane pre call post hcalls
    have hs : SaneFiles (runFileCalls pre) := by
      apply saneFiles_runFileCalls
      intro pre' call' post' hpre
      refine .inl (hsane pre' call' (post' ++ call :: post) ?_)
      rw [hcalls, hpre, List.append_assoc, List.cons_append]
    exact (callSane_iff hs (noSockets_runFileCalls pre) call).mp (hsane pre call post hcalls)
  · intro hrange pre call post hcalls
    have hs : SaneFiles (runFileCalls pre) := by
      apply saneFiles_runFileCalls
      intro pre' call' post' hpre
      refine .inr (hrange pre' call' (post' ++ call :: post) ?_)
      rw [hcalls, hpre, List.append_assoc, List.cons_append]
    exact (callSane_iff hs (noSockets_runFileCalls pre) call).mpr (hrange pre call post hcalls)

/-- `open("/", O_RDONLY)`, then a `write` of `2 ^ 63` bytes: the result is negative and no error
number is stored, but the file is now at the offset `-2 ^ 63`. -/
theorem huge_write_negative_offset :
    let opened : List FileCall := [.openFile (some [0x2F#8]) oRdonly]
    let write : FileCall := .write 64#32 (BitVec.ofNat 64 (2 ^ 63))
    (runCall (runFileCalls opened) write.call).1 = -2 ^ 63 ∧
      (runFileCalls (opened ++ [write])).errnoValue = 0#32 ∧
      ((runFileCalls (opened ++ [write])).fileTable 0).inUse = true ∧
      ((runFileCalls (opened ++ [write])).fileTable 0).offset.toInt = -2 ^ 63 ∧
      ¬RunSane (opened ++ [write]) := by
  intro opened write
  have hfile : ((runFileCalls (opened ++ [write])).fileTable 0).inUse = true ∧
      ((runFileCalls (opened ++ [write])).fileTable 0).offset.toInt = -2 ^ 63 := by
    decide +kernel
  refine ⟨by decide +kernel, by decide +kernel, hfile.1, hfile.2, fun hsane => ?_⟩
  have hfiles := (hsane opened write [] rfl).files
  rw [← runFileCalls_concat] at hfiles
  have hnonneg := (hfiles 0 (by decide) hfile.1).1
  rw [hfile.2] at hnonneg
  exact absurd hnonneg (by decide)

end GnuOS.Libc
