import GnuOS.Ipc.Handover

/-!
# When a rendezvous send completes

A sender polls until the slot is empty and the counter has moved on.  If its message was received
the counter has moved on, but the slot may hold the message of another sender by then: the first
sender then goes on waiting although its message was delivered.  It completes at its next poll in
runs where nobody posts before it has returned.
-/

namespace GnuOS.Ipc

open GnuOS.Lib GnuOS.Capability Function

variable {y y' : IpcSystem} {k : ℕ} {o : Outgoing} {base : BitVec 64} {n : ℕ}

/-! ## One poll -/

theorem RendezvousInv.slot_nil_iff (h : RendezvousInv y) {c : ℕ} (hc : c < 16) :
    y.ipc.slot c = [] ↔ y.postedOn c = y.takenOn c := by
  rw [show y.postedOn c = _ from h.queue c hc]
  exact List.append_right_eq_self.symm

/-- After its message was received a sender returns if and only if all messages posted on the
channel were received, and the counter did not wrap around to the value that the sender knows. -/
theorem RendezvousInv.completes_iff (h : RendezvousInv y) (hwaits : y.Waits k o base n) :
    y.exec (.resume k) = some (.status 0, y.endCall k) ↔
      y.postedOn o.channel = y.takenOn o.channel ∧
        ¬ 2 ^ 64 ∣ (y.takenOn o.channel).length - n := by
  have hc : o.channel < 16 := (inUse_of_valid (h.waits k o base n hwaits).valid).1
  have hle := h.position_le hwaits
  have hcount : BitVec.ofNat 64 (y.takenOn o.channel).length = BitVec.ofNat 64 n ↔
      2 ^ 64 ∣ (y.takenOn o.channel).length - n := by
    rw [← BitVec.toNat_inj, BitVec.toNat_ofNat, BitVec.toNat_ofNat, ← Nat.modEq_iff_dvd' hle]
    exact eq_comm
  rw [h.poll hwaits, ← h.slot_nil_iff hc, ← hcount]
  split
  · rename_i hcond
    exact iff_of_true rfl hcond
  · rename_i hcond
    exact iff_of_false (by simp) hcond

/-! ## Runs without overlapping sends -/

/-- No sender posts while a sender whose message was received still waits on the channel. -/
def PostsAlone (y : IpcSystem) (op : IpcStep) : Prop :=
  ∀ k o, op = .resume k → y.calls k = some (.posting o) →
    ∀ k' o' base n, y.Waits k' o' base n → o'.channel = o.channel →
      (y.takenOn o.channel).length ≤ n

/-- A sender whose message was received is the last one that was served, and the slot is empty. -/
def Prompt (y : IpcSystem) : Prop :=
  ∀ k o base n, y.Waits k o base n → n < (y.takenOn o.channel).length →
    y.ipc.slot o.channel = [] ∧ (y.takenOn o.channel).length = n + 1

theorem Quiet.prompt (hquiet : Quiet y y') (h : Prompt y) : Prompt y' := by
  intro k o base n hwaits
  rw [hquiet.taken, hquiet.slot]
  exact h k o base n (hquiet.waiting k o base n hwaits)

theorem Posts.prompt (hposts : Posts y y' k o base) (hinv : RendezvousInv y)
    (halone : PostsAlone y (.resume k)) (h : Prompt y) : Prompt y' := by
  intro j o' base' m hwaits hlt
  rw [hposts.taken] at hlt ⊢
  rcases hposts.waits hwaits with ⟨_, rfl, _, hm⟩ | hold
  · -- the new message has not been received
    have hlength := hposts.length_eq hinv
    omega
  · by_cases hchannel : o'.channel = o.channel
    · have hle := halone k o rfl hposts.call j o' base' m hold hchannel
      rw [hchannel] at hlt
      omega
    · rw [hposts.slot, update_of_ne hchannel]
      exact h j o' base' m hold hlt

theorem Takes.prompt {c : ℕ} {m : Received} (htakes : Takes y y' c m) (h : Prompt y) :
    Prompt y' := by
  intro j o' base' m' hwaits hlt
  have hold := htakes.waiting j o' base' m' hwaits
  rw [htakes.taken] at hlt ⊢
  rw [htakes.slot]
  by_cases hchannel : o'.channel = c
  · subst hchannel
    simp only [update_self, List.length_append, List.length_singleton] at hlt ⊢
    refine ⟨trivial, ?_⟩
    -- the slot was full, so no message of a waiting sender was received before
    by_contra hne
    have hprompt := (h j o' base' m' hold (by omega)).1
    rw [htakes.full] at hprompt
    exact absurd hprompt (by simp)
  · simp only [update_of_ne hchannel] at hlt ⊢
    exact h j o' base' m' hold hlt

/-- A post is a step of the call that posts. -/
theorem Posts.op_eq (hposts : Posts y y' k o base) {op : IpcStep} {r : Reply}
    (hexec : y.exec op = some (r, y')) : op = .resume k := by
  by_contra hop
  have hsame := exec_calls_other hop hposts.call hexec
  rw [hposts.calls, update_self] at hsame
  exact absurd hsame (by simp)

theorem prompt_run {s : IpcState} {caps : CapabilityState} {ops : List IpcStep}
    (hrun : ops.foldlM IpcSystem.step (IpcSystem.start s caps) = some y)
    (halone : EachStep IpcSystem.step PostsAlone (IpcSystem.start s caps) ops) : Prompt y := by
  have hall : (SystemInv y ∧ RendezvousInv y) ∧ Prompt y := by
    refine run_invariant_of (P := fun y => (SystemInv y ∧ RendezvousInv y) ∧ Prompt y) ?_
      ⟨⟨start_systemInv s caps, start_rendezvousInv s caps⟩, ?_⟩ halone hrun
    · intro y₁ op y₂ h hop hstep
      rcases step_eq_some.mp hstep with ⟨r, hexec⟩
      refine ⟨rendezvousInv_step h.1 hstep, ?_⟩
      have htrans := exec_transition h.1.1.resolved hexec
      rcases htrans.rendezvous h.1.1 with hquiet | ⟨k, o, base, hposts⟩ | ⟨c, m, htakes⟩
      · exact hquiet.prompt h.2
      · rw [hposts.op_eq hexec] at hop
        exact hposts.prompt h.1.2 hop h.2
      · exact htakes.prompt h.2
    · intro k o base n hwaits
      exact absurd hwaits (by simp [IpcSystem.Waits, IpcSystem.start])
  exact hall.2

/-- In every state of a run, a sender whose message was received returns 0 at its next poll if and
only if no other message is posted on the channel, up to a wrap-around of the counter.  In a run in
which no sender posts while such a sender waits on the channel, it always returns 0. -/
theorem rendezvous_run_completion (s : IpcState) (caps : CapabilityState) (ops : List IpcStep)
    (y : IpcSystem) (hrun : ops.foldlM IpcSystem.step (IpcSystem.start s caps) = some y) :
    (∀ k o base n, y.Waits k o base n → n < (y.takenOn o.channel).length →
      (y.exec (.resume k) = some (.status 0, y.endCall k) ↔
        y.postedOn o.channel = y.takenOn o.channel ∧
          ¬ 2 ^ 64 ∣ (y.takenOn o.channel).length - n)) ∧
    (EachStep IpcSystem.step PostsAlone (IpcSystem.start s caps) ops →
      ∀ k o base n, y.Waits k o base n → n < (y.takenOn o.channel).length →
        y.exec (.resume k) = some (.status 0, y.endCall k)) := by
  have hinv := (rendezvousInv_run hrun).2
  refine ⟨fun k o base n hwaits _ => hinv.completes_iff hwaits, ?_⟩
  intro halone k o base n hwaits hlt
  rcases prompt_run hrun halone k o base n hwaits hlt with ⟨hslot, hlength⟩
  have hc : o.channel < 16 := (inUse_of_valid (hinv.waits k o base n hwaits).valid).1
  apply (hinv.completes_iff hwaits).mpr
  refine ⟨(hinv.slot_nil_iff hc).mp hslot, ?_⟩
  rw [hlength, Nat.add_sub_cancel_left]
  decide

/-! ## Two senders -/

/-- Call 0 posts on a new channel, and call 1 receives. -/
def oneHandover : List IpcStep :=
  [.channelCreate (some fun i => if i < 1 then 97#8 else 0#8),
    .rendezvousSend 0 5#64 0#32 (some fun _ => 1#8) 1 0#64, .rendezvousRecv 1 0#32 64 true,
    .resume 0, .resume 1]

/-- When call 0 posts no call waits. -/
theorem oneHandover_alone :
    EachStep IpcSystem.step PostsAlone (IpcSystem.start staleIpc staleCaps) oneHandover := by
  refine .cons (fun k o h => by simp at h) fun y₁ hy₁ => ?_
  refine .cons (fun k o h => by simp at h) fun y₂ hy₂ => ?_
  refine .cons (fun k o h => by simp at h) fun y₃ hy₃ => ?_
  have hcalls : ∃ o, y₃.calls = update (update (fun _ => none) 0
      (some (.posting o))) 1 (some (.taking 0#32 64)) := by
    obtain rfl := Option.some.inj hy₁
    obtain rfl := Option.some.inj hy₂
    obtain rfl := Option.some.inj hy₃
    exact ⟨_, rfl⟩
  rcases hcalls with ⟨o, hcalls⟩
  have hnone : ∀ k o base n, ¬ y₃.Waits k o base n := by
    intro k o' base n hwaits
    rw [IpcSystem.Waits, hcalls] at hwaits
    have hwaits₀ := waiting_of_update (by simp) (waiting_of_update (by simp) hwaits)
    simp at hwaits₀
  refine .cons (fun k o _ _ k' o' base n hwaits => absurd hwaits (hnone k' o' base n))
    fun y₄ hy₄ => ?_
  have htaking : y₄.calls 1 = some (.taking 0#32 64) := by
    rcases step_eq_some.mp hy₄ with ⟨r, hexec⟩
    apply exec_calls_other (by simp) _ hexec
    rw [hcalls, update_self]
  refine .cons ?_ fun y₅ _ => .nil
  intro k o' hop hcall
  rw [IpcStep.resume.injEq] at hop
  rw [← hop, htaking] at hcall
  exact absurd hcall (by simp)

/-- The sender of a single message completes. -/
theorem rendezvous_run_completion_one_sender :
    ∃ y : IpcSystem,
      oneHandover.foldlM IpcSystem.step (IpcSystem.start staleIpc staleCaps) = some y ∧
      ∃ o base, y.Waits 0 o base 0 ∧ y.exec (.resume 0) = some (.status 0, y.endCall 0) := by
  refine ⟨_, rfl, _, _, rfl, ?_⟩
  refine (rendezvous_run_completion staleIpc staleCaps oneHandover _ rfl).2 oneHandover_alone 0 _ _
    0 rfl ?_
  decide +kernel

/-- Call 2 posts a second message before call 0 polls: call 0 goes on waiting, although its message
was received. -/
theorem delivered_sender_keeps_waiting :
    ∃ y : IpcSystem,
      (oneHandover ++ [IpcStep.rendezvousSend 2 6#64 0#32 (some fun _ => 2#8) 1 0#64,
        IpcStep.resume 2]).foldlM IpcSystem.step (IpcSystem.start staleIpc staleCaps) = some y ∧
      (∃ o base, y.Waits 0 o base 0 ∧ (y.takenOn o.channel)[0]? = some o.delivered) ∧
      (y.exec (.resume 0)).map Prod.fst = some .continues := by
  refine ⟨_, rfl, ⟨_, _, rfl, ?_⟩, ?_⟩
  · decide +kernel
  · decide +kernel

end GnuOS.Ipc
