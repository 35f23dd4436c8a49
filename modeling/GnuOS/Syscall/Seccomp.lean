import GnuOS.Lib.HistoryRing
import Mathlib.Data.BitVec

/-!
# The syscall filter

A model of `kernel/security/seccomp.c`: an action for each syscall number, and a ring of the last
128 audit events.  An action is a byte, as in the source, where the setters refuse every byte that
is not an action.
-/

namespace GnuOS.Syscall

open GnuOS.Lib List

def syscallMaxEntries : ℕ := 512

def seccompActionAllow : BitVec 8 := 0#8
def seccompActionLog : BitVec 8 := 1#8
def seccompActionErrno : BitVec 8 := 2#8
def seccompActionUnset : BitVec 8 := 0xFF#8

def seccompAuditCapacity : ℕ := 128

structure SeccompAuditEvent where
  sequence : BitVec 64
  tid : BitVec 64
  syscallNumber : BitVec 64
  action : BitVec 8
  result : BitVec 64
  deriving DecidableEq, Repr

/-- The globals of `seccomp.c`. -/
structure SeccompState where
  defaultAction : BitVec 8
  overrides : ℕ → BitVec 8
  auditRing : HistoryRing SeccompAuditEvent 128
  auditSequence : BitVec 64
  auditTotal : BitVec 64

/-! ## The functions -/

def seccompActionValid (action : BitVec 8) : Bool :=
  action = seccompActionAllow ∨ action = seccompActionLog ∨ action = seccompActionErrno

def seccompInit : SeccompState where
  defaultAction := seccompActionAllow
  overrides := fun _ => seccompActionUnset
  auditRing := ⟨fun _ => ⟨0#64, 0#64, 0#64, seccompActionAllow, 0#64⟩, 0, 0, by decide, by decide⟩
  auditSequence := 0#64
  auditTotal := 0#64

def seccompSetDefaultAction (s : SeccompState) (action : BitVec 8) : SeccompState :=
  if seccompActionValid action then { s with defaultAction := action } else s

def seccompGetSyscallAction (s : SeccompState) (syscallNumber : BitVec 64) : BitVec 8 :=
  if syscallNumber.toNat < syscallMaxEntries ∧
      s.overrides syscallNumber.toNat ≠ seccompActionUnset then
    s.overrides syscallNumber.toNat
  else s.defaultAction

def seccompAuditRecord (s : SeccompState) (tid syscallNumber : BitVec 64) (action : BitVec 8)
    (result : BitVec 64) : SeccompState :=
  if seccompActionValid action then
    let sequence := s.auditSequence + 1#64
    { s with
      auditRing := s.auditRing.record ⟨sequence, tid, syscallNumber, action, result⟩
      auditSequence := sequence
      auditTotal := s.auditTotal + 1#64 }
  else s

def seccompAuditCount (s : SeccompState) : BitVec 64 := s.auditTotal

/-- The status and the newest event; `outEvent` is false for a null pointer. -/
def seccompAuditLatest (s : SeccompState) (outEvent : Bool) : Int × Option SeccompAuditEvent :=
  if !outEvent then (-1, none)
  else if s.auditRing.size = 0 then (-2, none)
  else
    (0, some (s.auditRing.slots
      ((s.auditRing.head + s.auditRing.size - 1) % seccompAuditCapacity)))

/-! ## The audit log -/

/-- The events in the ring, oldest first. -/
def SeccompState.events (s : SeccompState) : List SeccompAuditEvent := s.auditRing.contents

/-- From `s` to `s'` exactly one event was added to the log, and the policy was not touched.  The
log holds the last 128 events. -/
structure Appended (s s' : SeccompState) (tid syscallNumber : BitVec 64) (action : BitVec 8)
    (result : BitVec 64) : Prop where
  events : s'.events =
    (s.events ++ [(⟨s.auditSequence + 1#64, tid, syscallNumber, action, result⟩ :
      SeccompAuditEvent)]).drop (s.events.length + 1 - 128)
  sequence : s'.auditSequence = s.auditSequence + 1#64
  total : s'.auditTotal = s.auditTotal + 1#64
  defaultAction : s'.defaultAction = s.defaultAction
  overrides : s'.overrides = s.overrides

theorem appended_record {action : BitVec 8} (hvalid : seccompActionValid action = true)
    (s : SeccompState) (tid syscallNumber result : BitVec 64) :
    Appended s (seccompAuditRecord s tid syscallNumber action result) tid syscallNumber action
      result := by
  unfold seccompAuditRecord
  rw [if_pos hvalid]
  refine ⟨?_, rfl, rfl, rfl, rfl⟩
  unfold SeccompState.events
  exact HistoryRing.contents_record _ _

variable {s : SeccompState}

/-- The state differs after an event. -/
theorem Appended.ne {s' : SeccompState} {tid syscallNumber result : BitVec 64} {action : BitVec 8}
    (h : Appended s s' tid syscallNumber action result) : s' ≠ s := by
  rintro rfl
  have htotal := h.total
  simp at htotal

/-- `seccomp_audit_latest` returns the last event of the log. -/
theorem seccompAuditLatest_eq (s : SeccompState) :
    seccompAuditLatest s true =
      match s.events.getLast? with
      | none => (-2, none)
      | some e => (0, some e) := by
  unfold seccompAuditLatest SeccompState.events HistoryRing.contents
  rw [if_neg (by simp)]
  by_cases hsize : s.auditRing.size = 0
  · rw [if_pos hsize, hsize]
    rfl
  · rw [if_neg hsize]
    obtain ⟨n, hn⟩ : ∃ n, s.auditRing.size = n + 1 := ⟨s.auditRing.size - 1, by omega⟩
    rw [hn, range_succ, map_append, map_singleton, getLast?_concat,
      Nat.add_sub_assoc (by omega), Nat.add_sub_cancel]
    rfl

/-! ## Runs of the audit log -/

/-- The arguments of `seccomp_audit_record`. -/
structure AuditCall where
  tid : BitVec 64
  syscallNumber : BitVec 64
  action : BitVec 8
  result : BitVec 64
  deriving DecidableEq, Repr

namespace AuditCall

def exec (s : SeccompState) (c : AuditCall) : SeccompState :=
  seccompAuditRecord s c.tid c.syscallNumber c.action c.result

def event (c : AuditCall) (sequence : BitVec 64) : SeccompAuditEvent :=
  ⟨sequence, c.tid, c.syscallNumber, c.action, c.result⟩

def Valid (c : AuditCall) : Bool := seccompActionValid c.action

end AuditCall

def SeccompAuditEvent.call (e : SeccompAuditEvent) : AuditCall :=
  ⟨e.tid, e.syscallNumber, e.action, e.result⟩

def validCalls (calls : List AuditCall) : List AuditCall := calls.filter AuditCall.Valid

def auditRun (calls : List AuditCall) : SeccompState := calls.foldl AuditCall.exec seccompInit

/-- What the log has to hold after the calls, when the `k`-th event gets the number `number k`:
the last 128 valid calls in their order, with their numbers. -/
structure AuditLog (number : ℕ → ℕ) (calls : List AuditCall) (s : SeccompState) : Prop where
  events : s.events.map SeccompAuditEvent.call =
    (validCalls calls).drop ((validCalls calls).length - min (validCalls calls).length 128)
  sequences : s.events.map (fun e => e.sequence.toNat) =
    (range' ((validCalls calls).length - min (validCalls calls).length 128 + 1)
      (min (validCalls calls).length 128)).map number
  count : (seccompAuditCount s).toNat = number (validCalls calls).length
  latest_empty : (validCalls calls).length = 0 → seccompAuditLatest s true = (-2, none)
  latest : ∀ c, (validCalls calls).getLast? = some c →
    ∃ e, seccompAuditLatest s true = (0, some e) ∧ e.call = c ∧
      e.sequence.toNat = number (validCalls calls).length
  ignored : ∀ c : AuditCall, c.Valid = false → c.exec s = s

/-- All the events of a run, those that the ring has lost included. -/
def auditHistory (calls : List AuditCall) : List SeccompAuditEvent :=
  ((validCalls calls).zipIdx 1).map fun p => p.1.event (BitVec.ofNat 64 p.2)

variable {c : AuditCall}

theorem validCalls_concat_valid (hvalid : c.Valid = true) (calls : List AuditCall) :
    validCalls (calls ++ [c]) = validCalls calls ++ [c] := by
  simp [validCalls, hvalid]

theorem validCalls_concat_invalid (hinvalid : c.Valid = false) (calls : List AuditCall) :
    validCalls (calls ++ [c]) = validCalls calls := by
  simp [validCalls, hinvalid]

theorem AuditCall.exec_valid (hvalid : c.Valid = true) (s : SeccompState) :
    c.exec s = { s with
      auditRing := s.auditRing.record (c.event (s.auditSequence + 1#64))
      auditSequence := s.auditSequence + 1#64
      auditTotal := s.auditTotal + 1#64 } :=
  if_pos hvalid

theorem AuditCall.exec_invalid (hinvalid : c.Valid = false) (s : SeccompState) :
    c.exec s = s :=
  if_neg (by rw [show seccompActionValid c.action = false from hinvalid]; decide)

/-- The ring has seen exactly the history, and both counters count it modulo 2^64. -/
structure Audited (calls : List AuditCall) (s : SeccompState) : Prop where
  ring : s.auditRing = (auditHistory calls).foldl HistoryRing.record seccompInit.auditRing
  sequence : s.auditSequence = BitVec.ofNat 64 (validCalls calls).length
  total : s.auditTotal = BitVec.ofNat 64 (validCalls calls).length

variable {calls : List AuditCall}

theorem Audited.exec (h : Audited calls s) (c : AuditCall) :
    Audited (calls ++ [c]) (c.exec s) := by
  cases hc : c.Valid with
  | false =>
    have hcalls := validCalls_concat_invalid hc calls
    have hhistory : auditHistory (calls ++ [c]) = auditHistory calls := by
      unfold auditHistory
      rw [hcalls]
    rw [AuditCall.exec_invalid hc]
    exact ⟨by rw [hhistory, h.ring], by rw [hcalls, h.sequence], by rw [hcalls, h.total]⟩
  | true =>
    have hcalls := validCalls_concat_valid hc calls
    have hnumber : s.auditSequence + 1#64 = BitVec.ofNat 64 (1 + (validCalls calls).length) := by
      rw [h.sequence, Nat.add_comm, BitVec.ofNat_add]
    have hhistory : auditHistory (calls ++ [c]) =
        auditHistory calls ++ [c.event (s.auditSequence + 1#64)] := by
      unfold auditHistory
      rw [hcalls, zipIdx_append, map_append, hnumber]
      rfl
    rw [AuditCall.exec_valid hc]
    refine ⟨?_, ?_, ?_⟩
    · rw [hhistory, foldl_concat, ← h.ring]
    · rw [hcalls, length_append, Nat.add_comm]
      exact hnumber
    · rw [hcalls, length_append, BitVec.ofNat_add, ← h.total]
      rfl

theorem audited_run (calls : List AuditCall) : Audited calls (auditRun calls) := by
  induction calls using reverseRecOn with
  | nil => exact ⟨rfl, rfl, rfl⟩
  | append_singleton calls c ih =>
    unfold auditRun
    rw [foldl_concat]
    exact ih.exec c

theorem seccompAuditCount_auditRun (calls : List AuditCall) :
    seccompAuditCount (auditRun calls) = BitVec.ofNat 64 (validCalls calls).length :=
  (audited_run calls).total

theorem auditHistory_length (calls : List AuditCall) :
    (auditHistory calls).length = (validCalls calls).length := by
  simp [auditHistory]

theorem auditHistory_calls (calls : List AuditCall) :
    (auditHistory calls).map SeccompAuditEvent.call = validCalls calls := by
  unfold auditHistory
  rw [map_map]
  exact zipIdx_map_fst 1 _

theorem auditHistory_sequences (calls : List AuditCall) :
    (auditHistory calls).map (fun e => e.sequence.toNat) =
      (range' 1 (validCalls calls).length).map (· % 2 ^ 64) := by
  unfold auditHistory
  rw [map_map, ← zipIdx_map_snd 1 (validCalls calls), map_map]
  apply map_congr_left
  intro p _
  exact BitVec.toNat_ofNat _ _

theorem Audited.events_eq (h : Audited calls s) :
    s.events = (auditHistory calls).drop
      ((validCalls calls).length - min (validCalls calls).length 128) := by
  have hdrop : (validCalls calls).length - 128 =
      (validCalls calls).length - min (validCalls calls).length 128 := by omega
  unfold SeccompState.events
  rw [h.ring, HistoryRing.contents_foldl_record rfl, auditHistory_length, hdrop]

/-- The newest event of the run is the last one of its history. -/
theorem Audited.latest_eq (h : Audited calls s) (hc : (validCalls calls).getLast? = some c) :
    ∃ e, seccompAuditLatest s true = (0, some e) ∧ e.call = c ∧
      e.sequence.toNat = (validCalls calls).length % 2 ^ 64 := by
  have hne : (validCalls calls).length ≠ 0 := by
    intro hzero
    rw [length_eq_zero_iff.mp hzero] at hc
    cases hc
  have hlast : s.events.getLast? = (auditHistory calls).getLast? := by
    rw [h.events_eq, getLast?_drop, auditHistory_length, if_neg (by omega)]
  have hcalls : (auditHistory calls).getLast?.map SeccompAuditEvent.call = some c := by
    rw [← getLast?_map, auditHistory_calls, hc]
  have hsequences : (auditHistory calls).getLast?.map (fun e => e.sequence.toNat) =
      some ((validCalls calls).length % 2 ^ 64) := by
    rw [← getLast?_map, auditHistory_sequences, getLast?_map, getLast?_range',
      if_neg hne]
    simp
  obtain ⟨e, he, hcall⟩ := Option.map_eq_some_iff.mp hcalls
  rw [he] at hsequences
  refine ⟨e, ?_, hcall, Option.some.inj hsequences⟩
  rw [seccompAuditLatest_eq, hlast, he]

theorem Audited.log (h : Audited calls s) :
    AuditLog (· % 2 ^ 64) calls s where
  events := by rw [h.events_eq, map_drop, auditHistory_calls]
  sequences := by
    have hlength : (validCalls calls).length -
        ((validCalls calls).length - min (validCalls calls).length 128) =
          min (validCalls calls).length 128 := by omega
    rw [h.events_eq, map_drop, auditHistory_sequences, ← map_drop, drop_range',
      hlength, Nat.mul_one, Nat.add_comm 1]
  count := by
    unfold seccompAuditCount
    rw [h.total, BitVec.toNat_ofNat]
  latest_empty := by
    intro hzero
    have hevents : s.events = [] := by
      rw [h.events_eq, length_eq_zero_iff.mp ((auditHistory_length calls).trans hzero),
        drop_nil]
    rw [seccompAuditLatest_eq, hevents]
    rfl
  latest := fun _ hc => h.latest_eq hc
  ignored := fun _ hinvalid => AuditCall.exec_invalid hinvalid s

/-- Below 2^64 events the counters do not wrap, so the numbers are the plain ones. -/
theorem AuditLog.of_lt (h : AuditLog (· % 2 ^ 64) calls s)
    (hlt : (validCalls calls).length < 2 ^ 64) :
    AuditLog id calls s where
  events := h.events
  sequences := by
    rw [h.sequences]
    apply map_congr_left
    intro k hk
    rw [mem_range'_1] at hk
    exact Nat.mod_eq_of_lt (by omega)
  count := h.count.trans (Nat.mod_eq_of_lt hlt)
  latest_empty := h.latest_empty
  latest := by
    intro c hc
    obtain ⟨e, hlatest, hcall, hsequence⟩ := h.latest c hc
    exact ⟨e, hlatest, hcall, hsequence.trans (Nat.mod_eq_of_lt hlt)⟩
  ignored := h.ignored

/-- The ring is the window of the newest 128 events.  Sequence numbers and the total are kept
modulo 2^64, so they are the true numbers exactly while fewer than 2^64 events were recorded. -/
theorem audit_run_keeps_newest (calls : List AuditCall) :
    AuditLog (· % 2 ^ 64) calls (auditRun calls) ∧
      (AuditLog id calls (auditRun calls) ↔ (validCalls calls).length < 2 ^ 64) := by
  have hlog := (audited_run calls).log
  refine ⟨hlog, ?_, hlog.of_lt⟩
  intro hplain
  have hcount : (seccompAuditCount (auditRun calls)).toNat = (validCalls calls).length :=
    hplain.count
  rw [← hcount]
  exact BitVec.isLt _

/-- The same event, `n` times. -/
def repeatedCall (n : ℕ) : List AuditCall :=
  replicate n ⟨1#64, 0#64, seccompActionLog, 0#64⟩

theorem length_validCalls_repeatedCall (n : ℕ) : (validCalls (repeatedCall n)).length = n := by
  unfold validCalls repeatedCall
  rw [filter_replicate_of_pos (by decide), length_replicate]

/-- After 2^64 events the total is 0 again. -/
theorem audit_count_wraps :
    (validCalls (repeatedCall (2 ^ 64))).length = 2 ^ 64 ∧
      seccompAuditCount (auditRun (repeatedCall (2 ^ 64))) = 0#64 ∧
      ¬ AuditLog id (repeatedCall (2 ^ 64)) (auditRun (repeatedCall (2 ^ 64))) := by
  have hlength := length_validCalls_repeatedCall (2 ^ 64)
  have hcount : seccompAuditCount (auditRun (repeatedCall (2 ^ 64))) = 0#64 := by
    rw [seccompAuditCount_auditRun, hlength]
    decide
  refine ⟨hlength, hcount, ?_⟩
  intro hlog
  have htotal := hlog.count
  rw [hcount, hlength] at htotal
  exact absurd htotal (by decide)

end GnuOS.Syscall
