import Mathlib.Data.List.Nodup

/-!
# Doubly linked lists threaded through two arrays

A list is a head index together with two arrays, `next` and `prev`; one index, `nil`, is the
end mark. `Seg next prev nil p a l` says that the nodes met from `a` are exactly `l`, and
that each of them points back to its predecessor (`p` for the first one). The two mutations
a free list needs are here: linking a node in front (`seg_push`) and unlinking a node from
the middle (`seg_remove`), each stated over the very array writes that perform it.
-/

namespace GnuOS.Lib

open List

open Function

variable {α : Type*}

/-- Following `next` from `a` visits exactly `l`, and `prev` is its inverse: the first node
points back to `p`. -/
def Seg (next prev : α → α) (nil : α) : α → α → List α → Prop
  | _, a, [] => a = nil
  | p, a, b :: l => a = b ∧ b ≠ nil ∧ prev b = p ∧ Seg next prev nil b (next b) l

section Basic
variable {next prev next' prev' : α → α} {nil : α} {l : List α}

/-- A segment only looks at the links of its own nodes. -/
theorem Seg.congr {p a : α} (h : Seg next prev nil p a l) (hn : ∀ b ∈ l, next' b = next b)
    (hp : ∀ b ∈ l, prev' b = prev b) :
    Seg next' prev' nil p a l := by
  induction l generalizing p a with
  | nil => exact h
  | cons b l ih =>
    obtain ⟨hab, hne, hpb, hseg⟩ := h
    refine ⟨hab, hne, ?_, ?_⟩
    · rw [hp b mem_cons_self, hpb]
    · rw [hn b mem_cons_self]
      exact ih hseg (fun c hc => hn c (mem_cons_of_mem b hc))
        (fun c hc => hp c (mem_cons_of_mem b hc))

theorem Seg.ne_nil {p a b : α} (h : Seg next prev nil p a l) (hb : b ∈ l) :
    b ≠ nil := by
  induction l generalizing p a with
  | nil => cases hb
  | cons c l ih =>
    obtain ⟨_, hne, _, hseg⟩ := h
    rcases mem_cons.mp hb with rfl | hb
    · exact hne
    · exact ih hseg hb

/-- The predecessor of a node is the segment's predecessor or one of its nodes. -/
theorem Seg.prev_mem {p a b : α} (h : Seg next prev nil p a l) (hb : b ∈ l) :
    prev b = p ∨ prev b ∈ l := by
  induction l generalizing p a with
  | nil => cases hb
  | cons c l ih =>
    obtain ⟨_, _, hpc, hseg⟩ := h
    rcases mem_cons.mp hb with rfl | hb
    · exact .inl hpc
    · rcases ih hseg hb with hc | hl
      · exact .inr (by rw [hc]; exact mem_cons_self)
      · exact .inr (mem_cons_of_mem c hl)

/-- The successor of a node is the end mark or a node of the segment. -/
theorem Seg.next_mem {p a b : α} (h : Seg next prev nil p a l) (hb : b ∈ l) :
    next b = nil ∨ next b ∈ l := by
  induction l generalizing p a with
  | nil => cases hb
  | cons c l ih =>
    obtain ⟨_, _, _, hseg⟩ := h
    rcases mem_cons.mp hb with rfl | hb
    · cases l with
      | nil => exact .inl hseg
      | cons d l =>
        right
        rw [hseg.1]
        exact mem_cons_of_mem b mem_cons_self
    · rcases ih hseg hb with hc | hl
      · exact .inl hc
      · exact .inr (mem_cons_of_mem c hl)

/-- The node a segment starts from is its first node, unless it is empty. -/
theorem Seg.head_eq {p a : α} (h : Seg next prev nil p a l) :
    (a = nil ∧ l = []) ∨ (a ≠ nil ∧ ∃ t, l = a :: t) := by
  cases l with
  | nil => exact .inl ⟨h, rfl⟩
  | cons b t =>
    obtain ⟨rfl, hne, _, _⟩ := h
    exact .inr ⟨hne, t, rfl⟩

end Basic

section Update
variable [DecidableEq α] {next prev : α → α} {nil : α}

/-- Linking the new node `x` in front of the list that starts at `a`. -/
theorem seg_push {a x : α} {l : List α} (h : Seg next prev nil nil a l) (hnd : l.Nodup)
    (hx : x ∉ l) (hxn : x ≠ nil) :
    Seg (update next x a)
      (if a ≠ nil then update (update prev x nil) a x
        else update prev x nil) nil nil x (x :: l) := by
  have hne : ∀ b ∈ l, b ≠ x := fun b hb hbx => hx (hbx ▸ hb)
  rcases h.head_eq with ⟨rfl, rfl⟩ | ⟨ha, t, rfl⟩
  · simp [Seg, hxn]
  · have hax : a ≠ x := hne a mem_cons_self
    have hat : ∀ b ∈ t, b ≠ a := fun b hb hba => (nodup_cons.mp hnd).1 (hba ▸ hb)
    obtain ⟨_, _, _, hseg⟩ := h
    rw [if_pos ha]
    refine ⟨rfl, hxn, ?_, ?_, ha, ?_, ?_⟩
    · rw [update_of_ne hax.symm, update_self]
    · rw [update_self]
    · rw [update_self]
    · rw [update_of_ne hax]
      refine hseg.congr (fun b hb => ?_) (fun b hb => ?_)
      · rw [update_of_ne (hne b (mem_cons_of_mem a hb))]
      · rw [update_of_ne (hat b hb),
          update_of_ne (hne b (mem_cons_of_mem a hb))]

/-- `next` after `b` has been unlinked. -/
def unlinkNext (next prev : α → α) (nil b : α) : α → α :=
  update (if prev b ≠ nil then update next (prev b) (next b) else next) b nil

/-- `prev` after `b` has been unlinked. -/
def unlinkPrev (next prev : α → α) (nil b : α) : α → α :=
  update (if next b ≠ nil then update prev (next b) (prev b) else prev) b nil

theorem unlinkNext_of_ne {b c : α} (hcb : c ≠ b) (hc : c ≠ prev b) :
    unlinkNext next prev nil b c = next c := by
  unfold unlinkNext
  rw [update_of_ne hcb]
  split
  · rw [update_of_ne hc]
  · rfl

theorem unlinkPrev_of_ne {b c : α} (hcb : c ≠ b) (hc : c ≠ next b) :
    unlinkPrev next prev nil b c = prev c := by
  unfold unlinkPrev
  rw [update_of_ne hcb]
  split
  · rw [update_of_ne hc]
  · rfl

/-- The predecessor of the unlinked node now points past it. -/
theorem unlinkNext_prev {b : α} (hne : prev b ≠ b) (hnil : prev b ≠ nil) :
    unlinkNext next prev nil b (prev b) = next b := by
  unfold unlinkNext
  rw [update_of_ne hne, if_pos hnil, update_self]

/-- The successor of the unlinked node now points back past it. -/
theorem unlinkPrev_next {b : α} (hne : next b ≠ b) (hnil : next b ≠ nil) :
    unlinkPrev next prev nil b (next b) = prev b := by
  unfold unlinkPrev
  rw [update_of_ne hne, if_pos hnil, update_self]

/-- Unlinking the first node of a segment with predecessor `p`. -/
theorem seg_unlink_first {p b : α} {l : List α} (h : Seg next prev nil p b (b :: l))
    (hnd : (b :: l).Nodup) (hp : p ∉ b :: l) :
    Seg (unlinkNext next prev nil b) (unlinkPrev next prev nil b) nil p (next b) l := by
  obtain ⟨_, _, hpb, hseg⟩ := h
  have hbl : ∀ c ∈ l, c ≠ b := fun c hc hcb => (nodup_cons.mp hnd).1 (hcb ▸ hc)
  have hpl : ∀ c ∈ l, c ≠ prev b := by
    intro c hc hcp
    exact hp (by rw [← hpb, ← hcp]; exact mem_cons_of_mem b hc)
  cases l with
  | nil => exact hseg
  | cons c t =>
    obtain ⟨hnc, hcn, hpc, hrest⟩ := hseg
    have hct : ∀ d ∈ t, d ≠ next b := by
      intro d hd hdn
      exact (nodup_cons.mp (nodup_cons.mp hnd).2).1 (by rw [← hnc, ← hdn]; exact hd)
    have hcb : c ≠ b := hbl c mem_cons_self
    refine ⟨hnc, hcn, ?_, ?_⟩
    · rw [← hpb, ← hnc]
      exact unlinkPrev_next (by rw [hnc]; exact hcb) (by rw [hnc]; exact hcn)
    · rw [unlinkNext_of_ne hcb (hpl c mem_cons_self)]
      refine hrest.congr (fun d hd => ?_) (fun d hd => ?_)
      · exact unlinkNext_of_ne (hbl d (mem_cons_of_mem c hd))
          (hpl d (mem_cons_of_mem c hd))
      · exact unlinkPrev_of_ne (hbl d (mem_cons_of_mem c hd)) (hct d hd)

/-- Unlinking a node anywhere in a segment. The induction runs along the list with the
predecessor as a parameter; only the node in front of `b` gets a new successor. -/
theorem seg_unlink {p a b : α} {l : List α} (h : Seg next prev nil p a l) (hnd : l.Nodup)
    (hp : p ∉ l) (hb : b ∈ l) :
    Seg (unlinkNext next prev nil b) (unlinkPrev next prev nil b) nil p
      (if prev b = p then next b else a) (l.erase b) := by
  induction l generalizing p a with
  | nil => cases hb
  | cons c t ih =>
    by_cases hcb : c = b
    · subst hcb
      have hac : a = c := h.1
      subst hac
      rw [erase_cons_head, if_pos h.2.2.1]
      exact seg_unlink_first h hnd hp
    · have hbt : b ∈ t := by
        rcases mem_cons.mp hb with hbc | hbt
        · exact absurd hbc.symm hcb
        · exact hbt
      obtain ⟨hac, hcn, hpc, hseg⟩ := h
      have hct : c ∉ t := (nodup_cons.mp hnd).1
      have hndt : t.Nodup := (nodup_cons.mp hnd).2
      -- the predecessor of `b` is in the list, so the link from `p` stays
      have hpb : prev b ∈ c :: t := by
        rcases hseg.prev_mem hbt with hpb | hpb
        · rw [hpb]; exact mem_cons_self
        · exact mem_cons_of_mem c hpb
      have hpne : prev b ≠ p := fun heq => hp (heq ▸ hpb)
      have hcnext : c ≠ next b := by
        intro heq
        rcases hseg.next_mem hbt with hn | hn
        · exact hcn (heq.trans hn)
        · exact hct (heq ▸ hn)
      rw [if_neg hpne, erase_cons_tail (by simpa using hcb)]
      refine ⟨hac, hcn, ?_, ?_⟩
      · rw [unlinkPrev_of_ne hcb hcnext]
        exact hpc
      · have hrec := ih hseg hndt hct hbt
        by_cases hpc' : prev b = c
        · rw [if_pos hpc'] at hrec
          have hlink : unlinkNext next prev nil b c = next b := by
            rw [← hpc']
            exact unlinkNext_prev (by rw [hpc']; exact hcb) (by rw [hpc']; exact hcn)
          rw [hlink]
          exact hrec
        · rw [if_neg hpc'] at hrec
          rw [unlinkNext_of_ne hcb (fun heq => hpc' heq.symm)]
          exact hrec

/-- Unlinking a node from a whole list. The head moves only when the node was first. -/
theorem seg_remove {a b : α} {l : List α} (h : Seg next prev nil nil a l) (hnd : l.Nodup)
    (hb : b ∈ l) :
    Seg (unlinkNext next prev nil b) (unlinkPrev next prev nil b) nil nil
      (if prev b ≠ nil then a else next b) (l.erase b) := by
  have hmain := seg_unlink h hnd (fun hmem => h.ne_nil hmem rfl) hb
  by_cases hpn : prev b = nil
  · rw [if_neg (not_not.mpr hpn)]
    rwa [if_pos hpn] at hmain
  · rw [if_pos hpn]
    rwa [if_neg hpn] at hmain

end Update

end GnuOS.Lib
