import GnuOS.Ipc.Basic

/-!
# Channel names

The characters of a text up to its terminating NUL are its name.  The loops over characters
compute with names: `ipc_name_equal` compares them and `ipc_name_copy` keeps them.  On this
`ipc_channel_create` and `ipc_channel_find` implement a map from names to channel indices.
-/

namespace GnuOS.Ipc

open List

open Function

/-- The number of characters before the first NUL, at most 32. -/
def nameLen (text : ℕ → Byte) : ℕ := strnlenLoop text 32 0

/-- The characters before the first NUL, at most 32. -/
def nameOf (text : ℕ → Byte) : List Byte := (range (nameLen text)).map text

/-! ## The loops -/

/-- `ipc_strnlen` stops at the first NUL or at the limit. -/
theorem strnlenLoop_spec (text : ℕ → Byte) (n start : ℕ) :
    start ≤ strnlenLoop text n start ∧ strnlenLoop text n start ≤ start + n ∧
      (∀ i, start ≤ i → i < strnlenLoop text n start → text i ≠ 0#8) ∧
      (strnlenLoop text n start < start + n → text (strnlenLoop text n start) = 0#8) := by
  induction n generalizing start with
  | zero =>
    simp only [strnlenLoop]
    refine ⟨le_refl _, le_refl _, ?_, ?_⟩ <;> omega
  | succ n ih =>
    simp only [strnlenLoop]
    split
    · rename_i hchar
      rcases ih (start + 1) with ⟨hlo, hhi, hne, hend⟩
      refine ⟨by omega, by omega, ?_, ?_⟩
      · intro i hi hlt
        by_cases his : i = start
        · rw [his]
          exact hchar
        · exact hne i (by omega) hlt
      · intro hlt
        exact hend (by omega)
    · rename_i hchar
      refine ⟨le_refl _, by omega, ?_, ?_⟩
      · intro i hi hlt
        omega
      · intro _
        exact not_not.mp hchar

/-- The length is where the first NUL stands. -/
theorem strnlenLoop_eq {text : ℕ → Byte} {n k : ℕ} (hk : k ≤ n)
    (hne : ∀ i, i < k → text i ≠ 0#8) (hend : k < n → text k = 0#8) :
    strnlenLoop text n 0 = k := by
  rcases strnlenLoop_spec text n 0 with ⟨_, hhi, hne', hend'⟩
  rcases lt_trichotomy (strnlenLoop text n 0) k with hlt | heq | hgt
  · exact absurd (hend' (by omega)) (hne _ hlt)
  · exact heq
  · exact absurd (hend (by omega)) (hne' k (by omega) hgt)

theorem ne_zero_of_lt_nameLen {text : ℕ → Byte} {i : ℕ} (hi : i < nameLen text) :
    text i ≠ 0#8 :=
  (strnlenLoop_spec text 32 0).2.2.1 i (by omega) hi

theorem zero_at_nameLen {text : ℕ → Byte} (h : nameLen text < 32) : text (nameLen text) = 0#8 :=
  (strnlenLoop_spec text 32 0).2.2.2 (by unfold nameLen at h; omega)

theorem length_nameOf (text : ℕ → Byte) : (nameOf text).length = nameLen text := by
  simp [nameOf]

/-- Equal names: equal lengths and equal characters. -/
theorem nameOf_eq_iff (left right : ℕ → Byte) :
    nameOf left = nameOf right ↔
      nameLen left = nameLen right ∧ ∀ i, i < nameLen left → left i = right i := by
  constructor
  · intro h
    have hlen := congrArg length h
    rw [length_nameOf, length_nameOf] at hlen
    refine ⟨hlen, ?_⟩
    intro i hi
    have hget := congrArg (fun l => l[i]?) h
    have hi' : i < nameLen right := by omega
    simpa [nameOf, hi, hi'] using hget
  · intro h
    unfold nameOf
    rw [← h.1]
    apply map_congr_left
    intro i hi
    exact h.2 i (mem_range.mp hi)

/-- `ipc_name_equal` succeeds if the texts have the same characters up to their first NUL, and have
one. -/
theorem nameEqualLoop_iff (left right : ℕ → Byte) (n start : ℕ) :
    nameEqualLoop left right n start = true ↔
      strnlenLoop left n start < start + n ∧ strnlenLoop left n start = strnlenLoop right n start ∧
        ∀ i, start ≤ i → i < strnlenLoop left n start → left i = right i := by
  induction n generalizing start with
  | zero => simp [nameEqualLoop, strnlenLoop]
  | succ n ih =>
    have hlow := (strnlenLoop_spec left n (start + 1)).1
    have hlow' := (strnlenLoop_spec right n (start + 1)).1
    simp only [nameEqualLoop, strnlenLoop]
    by_cases hsame : left start = right start
    · by_cases hend : left start = 0#8
      · rw [if_neg (not_not.mpr hsame), if_pos hend, if_neg (not_not.mpr hend),
          if_neg (not_not.mpr (hsame ▸ hend))]
        exact iff_of_true rfl ⟨by omega, rfl, fun i hi hlt => by omega⟩
      · -- equal and not NUL: the rest decides
        rw [if_neg (not_not.mpr hsame), if_neg hend, if_pos hend, if_pos (hsame ▸ hend),
          ih (start + 1), Nat.add_right_comm]
        refine and_congr_right fun _ => and_congr_right fun _ =>
          ⟨fun h i hi hlt => ?_, fun h i hi => h i (by omega)⟩
        by_cases his : i = start
        · rw [his, hsame]
        · exact h i (by omega) hlt
    · rw [if_pos hsame]
      refine iff_of_false Bool.false_ne_true ?_
      rintro ⟨_, hlength, heq⟩
      split_ifs at hlength heq with hleft hright hright
      · exact hsame (heq start le_rfl (by omega))
      · omega
      · omega
      · exact hsame ((not_not.mp hleft).trans (not_not.mp hright).symm)

/-- A terminated text equals another exactly when their names are the same. -/
theorem ipcNameEqual_iff {left : ℕ → Byte} (hleft : nameLen left < 32) (right : ℕ → Byte) :
    ipcNameEqual left right = true ↔ nameOf left = nameOf right := by
  rw [ipcNameEqual, nameEqualLoop_iff, nameOf_eq_iff, Nat.zero_add]
  constructor
  · rintro ⟨_, hlength, heq⟩
    exact ⟨hlength, fun i => heq i (Nat.zero_le i)⟩
  · rintro ⟨hlength, heq⟩
    exact ⟨hleft, hlength, fun i _ => heq i⟩

/-- `ipc_name_copy` copies up to the first NUL. -/
theorem nameCopyLoop_apply (src : ℕ → Byte) (n start : ℕ) (dst : ℕ → Byte) (i : ℕ) :
    nameCopyLoop src n start dst i =
      if start ≤ i ∧ i < strnlenLoop src n start then src i else dst i := by
  induction n generalizing start dst with
  | zero =>
    rw [if_neg (by simp only [strnlenLoop]; omega)]
    rfl
  | succ n ih =>
    simp only [nameCopyLoop, strnlenLoop]
    split
    · rw [ih (start + 1)]
      have hlo := (strnlenLoop_spec src n (start + 1)).1
      by_cases his : i = start
      · subst his
        rw [if_neg (by omega), if_pos (by omega), update_self]
      · rw [update_of_ne his]
        by_cases hin : start + 1 ≤ i ∧ i < strnlenLoop src n (start + 1)
        · rw [if_pos hin, if_pos (by omega)]
        · rw [if_neg hin, if_neg (by omega)]
    · rw [if_neg (by omega)]

/-- A copied name is the name, and terminated. -/
theorem nameOf_ipcNameCopy {src : ℕ → Byte} (hsrc : nameLen src < 32) (dst : ℕ → Byte) :
    nameOf (ipcNameCopy dst src) = nameOf src ∧ nameLen (ipcNameCopy dst src) < 32 := by
  have hloop : strnlenLoop src 31 0 = nameLen src :=
    strnlenLoop_eq (by omega) (fun i hi => ne_zero_of_lt_nameLen hi)
      (fun _ => zero_at_nameLen hsrc)
  have hchar : ∀ i, i < nameLen src → ipcNameCopy dst src i = src i := by
    intro i hi
    rw [ipcNameCopy, nameCopyLoop_apply]
    exact if_pos ⟨by omega, by rw [show ipcChannelNameMax - 1 = 31 from rfl, hloop]; exact hi⟩
  have hend : ipcNameCopy dst src (nameLen src) = 0#8 := by
    rw [ipcNameCopy, nameCopyLoop_apply, show ipcChannelNameMax - 1 = 31 from rfl, hloop,
      if_neg (by omega), if_pos (by unfold ipcChannelNameMax; omega)]
  have hlen : nameLen (ipcNameCopy dst src) = nameLen src := by
    apply strnlenLoop_eq (by omega)
    · intro i hi
      rw [hchar i hi]
      exact ne_zero_of_lt_nameLen hi
    · intro _
      exact hend
  refine ⟨?_, by omega⟩
  rw [nameOf_eq_iff]
  refine ⟨hlen, ?_⟩
  intro i hi
  exact hchar i (by omega)

/-! ## The registry -/

/-- The channels in use have names of 1 to 31 characters, no two the same. -/
structure NamesInv (s : IpcState) : Prop where
  nonempty : ∀ i, i < 16 → (s.channels i).inUse = true → 0 < nameLen (s.channels i).name
  terminated : ∀ i, i < 16 → (s.channels i).inUse = true → nameLen (s.channels i).name < 32
  distinct : ∀ i j, i < 16 → j < 16 → (s.channels i).inUse = true → (s.channels j).inUse = true →
    nameOf (s.channels i).name = nameOf (s.channels j).name → i = j

/-- The id of a name: the map that `ipc_channel_create` and `ipc_channel_find` implement. -/
def IpcState.idOf (s : IpcState) (name : List Byte) : Option ℕ :=
  (range 16).find? fun i => (s.channels i).inUse && nameOf (s.channels i).name = name

variable {s s' : IpcState} {text : ℕ → Byte} {name : List Byte} {i : ℕ}

/-- The id of a name is the channel in use that has it. -/
theorem idOf_eq_some (h : NamesInv s) :
    s.idOf name = some i ↔
      i < 16 ∧ (s.channels i).inUse = true ∧ nameOf (s.channels i).name = name := by
  unfold IpcState.idOf
  constructor
  · intro hfind
    have hboth := find?_some hfind
    rw [Bool.and_eq_true, decide_eq_true_eq] at hboth
    exact ⟨mem_range.mp (mem_of_find?_eq_some hfind), hboth⟩
  · intro hi
    rcases hi with ⟨hi, huse, hname⟩
    cases hfind : (range 16).find? fun i =>
        (s.channels i).inUse && nameOf (s.channels i).name = name with
    | none =>
      have hno := find?_eq_none.mp hfind i (mem_range.mpr hi)
      simp [huse, hname] at hno
    | some j =>
      -- the first match is the only one
      have hj : j < 16 := mem_range.mp (mem_of_find?_eq_some hfind)
      have hboth := find?_some hfind
      rw [Bool.and_eq_true, decide_eq_true_eq] at hboth
      rw [h.distinct i j hi hj huse hboth.1 (hname.trans hboth.2.symm)]

theorem idOf_eq_none (h : NamesInv s) :
    s.idOf name = none ↔
      ∀ i, i < 16 → (s.channels i).inUse = true → nameOf (s.channels i).name ≠ name := by
  constructor
  · intro hnone i hi huse hname
    have hsome := (idOf_eq_some h).mpr ⟨hi, huse, hname⟩
    rw [hnone] at hsome
    exact absurd hsome (by simp)
  · intro hall
    cases hfind : s.idOf name with
    | none => rfl
    | some i =>
      rcases (idOf_eq_some h).mp hfind with ⟨hi, huse, hname⟩
      exact absurd hname (hall i hi huse)

/-- No two names have one id. -/
theorem idOf_injective (h : NamesInv s) {name' : List Byte} (hname : s.idOf name = some i)
    (hname' : s.idOf name' = some i) : name = name' :=
  ((idOf_eq_some h).mp hname).2.2.symm.trans ((idOf_eq_some h).mp hname').2.2

/-- The search of the source compares characters; it finds the id of the name. -/
theorem ipcFindChannelLocked_eq_idOf (h : NamesInv s) (text : ℕ → Byte) :
    ipcFindChannelLocked s text = s.idOf (nameOf text) := by
  unfold ipcFindChannelLocked IpcState.idOf ipcMaxChannels
  rw [← head?_filter, ← head?_filter]
  congr 1
  apply filter_congr
  intro i hi
  rw [mem_range] at hi
  cases huse : (s.channels i).inUse with
  | false => rfl
  | true =>
    rw [Bool.eq_iff_iff, Bool.and_eq_true, Bool.and_eq_true, decide_eq_true_eq,
      ipcNameEqual_iff (h.terminated i hi huse) text]

/-- The same channels are in use, under the same names. -/
def SameRegistry (s s' : IpcState) : Prop :=
  ∀ i, (s'.channels i).inUse = (s.channels i).inUse ∧ (s'.channels i).name = (s.channels i).name

theorem SameRegistry.namesInv (hsame : SameRegistry s s') (h : NamesInv s) : NamesInv s' := by
  refine ⟨?_, ?_, ?_⟩
  · intro i hi
    rw [(hsame i).1, (hsame i).2]
    exact h.nonempty i hi
  · intro i hi
    rw [(hsame i).1, (hsame i).2]
    exact h.terminated i hi
  · intro i j hi hj
    rw [(hsame i).1, (hsame i).2, (hsame j).1, (hsame j).2]
    exact h.distinct i j hi hj

theorem SameRegistry.idOf_eq (hsame : SameRegistry s s') : s'.idOf = s.idOf := by
  funext name
  unfold IpcState.idOf
  congr 1
  funext i
  rw [(hsame i).1, (hsame i).2]

/-! ## Creating a channel -/

/-- The state after a new channel was created in slot `i`. -/
def createdState (s : IpcState) (i : ℕ) (text : ℕ → Byte) : IpcState :=
  { s.setChannel i (clearChannel (s.channels i) true text) with channelCount := s.channelCount + 1 }

/-- What `ipc_channel_create` can do with a text. -/
inductive CreateCase (s : IpcState) (text : ℕ → Byte) : ℤ × IpcState → Prop
  | badName : nameLen text = 0 ∨ 32 ≤ nameLen text → CreateCase s text (-1, s)
  | existing (i : ℕ) : 0 < nameLen text → nameLen text < 32 →
      ipcFindChannelLocked s text = some i → CreateCase s text (i, s)
  | full : 0 < nameLen text → nameLen text < 32 → ipcFindChannelLocked s text = none →
      (∀ i, i < 16 → (s.channels i).inUse = true) → CreateCase s text (-2, s)
  | created (i : ℕ) : 0 < nameLen text → nameLen text < 32 →
      ipcFindChannelLocked s text = none → i < 16 → (s.channels i).inUse = false →
      CreateCase s text (i, createdState s i text)

theorem ipcChannelCreate_cases (s : IpcState) (text : ℕ → Byte) :
    CreateCase s text (ipcChannelCreate s (some text)) := by
  have hlen : ipcStrnlen (some text) ipcChannelNameMax = nameLen text := rfl
  simp only [ipcChannelCreate, hlen]
  split
  · rename_i hbad
    exact .badName hbad
  rename_i hok
  unfold ipcChannelNameMax at hok
  cases hfind : ipcFindChannelLocked s text with
  | some i => exact .existing i (by omega) (by omega) hfind
  | none =>
    cases hfree : (range ipcMaxChannels).find? fun i => !(s.channels i).inUse with
    | none =>
      refine .full (by omega) (by omega) hfind ?_
      intro i hi
      have hno := find?_eq_none.mp hfree i (mem_range.mpr hi)
      simpa using hno
    | some i =>
      have hi : i < 16 := mem_range.mp (mem_of_find?_eq_some hfree)
      have hunused := find?_some hfree
      exact .created i (by omega) (by omega) hfind hi (by simpa using hunused)

theorem createdState_self : (createdState s i text).channels i =
    clearChannel (s.channels i) true text := by
  simp [createdState, IpcState.setChannel]

theorem createdState_other {j : ℕ} (hj : j ≠ i) :
    (createdState s i text).channels j = s.channels j := by
  simp [createdState, IpcState.setChannel, hj]

/-- A new channel keeps the registry in order. -/
theorem NamesInv.created (h : NamesInv s) (hpos : 0 < nameLen text) (hlt : nameLen text < 32)
    (hfind : s.idOf (nameOf text) = none) : NamesInv (createdState s i text) := by
  have hnew : ∀ dst, nameOf (ipcNameCopy dst text) = nameOf text ∧
      nameLen (ipcNameCopy dst text) < 32 := nameOf_ipcNameCopy hlt
  have hnewlen : ∀ dst, nameLen (ipcNameCopy dst text) = nameLen text := by
    intro dst
    rw [← length_nameOf, (hnew dst).1, length_nameOf]
  have hother := (idOf_eq_none h).mp hfind
  refine ⟨?_, ?_, ?_⟩
  · intro j hj huse
    by_cases hji : j = i
    · rw [hji, createdState_self]
      simp only [clearChannel, hnewlen]
      exact hpos
    · rw [createdState_other hji] at huse ⊢
      exact h.nonempty j hj huse
  · intro j hj huse
    by_cases hji : j = i
    · rw [hji, createdState_self]
      exact (hnew _).2
    · rw [createdState_other hji] at huse ⊢
      exact h.terminated j hj huse
  · intro j k hj hk hujse hkuse hname
    by_cases hji : j = i <;> by_cases hki : k = i
    · rw [hji, hki]
    · rw [hji, createdState_self, createdState_other hki] at hname
      rw [createdState_other hki] at hkuse
      exact absurd (hname.symm.trans (hnew _).1) (hother k hk hkuse)
    · rw [hki, createdState_self, createdState_other hji] at hname
      rw [createdState_other hji] at hujse
      exact absurd (hname.trans (hnew _).1) (hother j hj hujse)
    · rw [createdState_other hji, createdState_other hki] at hname
      rw [createdState_other hji] at hujse
      rw [createdState_other hki] at hkuse
      exact h.distinct j k hj hk hujse hkuse hname

/-- A new channel adds its name to the map. -/
theorem idOf_created (h : NamesInv s) (hpos : 0 < nameLen text) (hlt : nameLen text < 32)
    (hfind : s.idOf (nameOf text) = none) (hi : i < 16) (hunused : (s.channels i).inUse = false) :
    (createdState s i text).idOf = update s.idOf (nameOf text) (some i) := by
  have h' := h.created (i := i) hpos hlt hfind
  have hnew := (nameOf_ipcNameCopy hlt (s.channels i).name).1
  funext name
  by_cases hname : name = nameOf text
  · rw [hname, update_self, idOf_eq_some h', createdState_self]
    exact ⟨hi, rfl, hnew⟩
  · rw [update_of_ne hname]
    -- the same channels carry the name before and after
    apply Option.ext
    intro j
    rw [idOf_eq_some h', idOf_eq_some h]
    by_cases hji : j = i
    · rw [hji, createdState_self]
      simp only [hunused, Bool.false_eq_true, false_and, and_false, iff_false]
      intro hcon
      exact hname (hcon.2.2.symm.trans hnew)
    · rw [createdState_other hji]

end GnuOS.Ipc
