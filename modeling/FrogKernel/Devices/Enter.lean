import FrogKernel.Devices.TtyRuns

/-!
# The Enter key (`devices/tty/tty.c`)

`tty_input_push` erases on a backspace before it looks at the capacity of the
ring, but drops Enter like any other key once the ring is full; `tty_read`
waits for a newline in the ring.

Main result: `enter_iff`, in which runs every Enter can be queued.
-/

namespace FrogKernel.Tty

open FrogKernel.Runs

/-- Enter, pressed now, leaves a newline in the ring. -/
def EnterKept (t : TtyT) : Prop := newline ∈ queued (ttyInputPush t newline).1

/-- A full ring without a newline. -/
def Jammed (t : TtyT) : Prop := t.ringCount = TTY_RING_SIZE ∧ newline ∉ queued t

/-- The event is not an ordinary character for the last free slot while no
newline is queued. -/
def LeavesRoom (t : TtyT) : TtyEvent → Prop
  | .push c _ => c = backspace ∨ c = newline ∨ t.ringCount + 1 ≠ TTY_RING_SIZE ∨ newline ∈ queued t
  | .read _ _ => True

/-- A ring that agrees with what was typed. -/
def Sound (t : TtyT) : Prop := ∃ text past, Edited text past t

theorem Sound.count_le {t : TtyT} (h : Sound t) : t.ringCount ≤ TTY_RING_SIZE := by
  obtain ⟨text, past, hedited⟩ := h
  exact hedited.count_le

theorem sound_init : Sound ttyInit :=
  ⟨[], [], rfl, by decide, rfl, by decide, rfl, Nat.le_refl _⟩

theorem Sound.push {t : TtyT} (h : Sound t) (c : BitVec 8) : Sound (ttyInputPush t c).1 := by
  obtain ⟨text, past, hedited⟩ := h
  exact ⟨_, past, edited_push hedited c⟩

theorem Sound.step {t t' : TtyT} {e : TtyEvent} (h : Sound t) (hstep : TtyStep t e t') :
    Sound t' := by
  cases hstep with
  | @push c => exact h.push c
  | @read len hnl =>
    obtain ⟨text, past, hedited⟩ := h
    exact ⟨text, _, edited_read hedited hnl len⟩

theorem Sound.of_run {es : List TtyEvent} {t : TtyT} (hrun : Run TtyStep ttyInit es t) : Sound t :=
  hrun.invariant (I := Sound) (fun _ _ _ h hstep => h.step hstep) sound_init

/-! ## One key -/

theorem queued_length (t : TtyT) : (queued t).length = t.ringCount := by
  rw [queued, Ring.slots_length]

theorem queued_type {t : TtyT} (h : Sound t) {c : BitVec 8} (hc : c ≠ backspace)
    (hroom : t.ringCount < TTY_RING_SIZE) : queued (ttyInputPush t c).1 = queued t ++ [c] := by
  obtain ⟨text, past, hedited⟩ := h
  have hpush := (edited_push hedited c).split
  rw [if_pos (Or.inr hroom), Ring.edit, if_neg hc, ← hedited.split, List.append_assoc] at hpush
  exact List.append_cancel_left hpush

theorem push_full {t : TtyT} {c : BitVec 8} (hc : c ≠ backspace)
    (hfull : t.ringCount = TTY_RING_SIZE) : (ttyInputPush t c).1 = t := by
  rw [ttyInputPush, if_neg hc, if_pos hfull.ge]

/-- An erase leaves the ring as it is or with a free slot. -/
theorem push_backspace {t : TtyT} (h : Sound t) :
    (ttyInputPush t backspace).1 = t ∨ (ttyInputPush t backspace).1.ringCount < TTY_RING_SIZE := by
  have hle := h.count_le
  rw [ttyInputPush, if_pos rfl]
  by_cases hline : t.lineLen = 0
  · rw [if_pos hline]
    exact Or.inl rfl
  · rw [if_neg hline]
    by_cases hcount : t.ringCount > 0
    · rw [if_pos hcount]
      refine Or.inr ?_
      dsimp only
      omega
    · rw [if_neg hcount]
      exact Or.inl rfl

theorem enterKept_iff {t : TtyT} (h : Sound t) : EnterKept t ↔ ¬ Jammed t := by
  have hnl : newline ≠ backspace := by decide
  rcases h.count_le.lt_or_eq with hroom | hfull
  · refine iff_of_true ?_ fun hjam => hroom.ne hjam.1
    rw [EnterKept, queued_type h hnl hroom]
    exact List.mem_append_right _ (List.mem_singleton_self _)
  · rw [EnterKept, push_full hnl hfull, Jammed, not_and, not_not]
    exact ⟨fun hmem _ => hmem, fun hmem => hmem hfull⟩

/-! ## Steps -/

theorem jammed_keep {t t' : TtyT} {e : TtyEvent} (h : Sound t) (hfree : ¬ Jammed t)
    (hroom : LeavesRoom t e) (hstep : TtyStep t e t') : ¬ Jammed t' := by
  cases hstep with
  | @push c =>
    by_cases hc : c = backspace
    · rcases hc ▸ push_backspace h with hsame | hlt
      · rwa [hsame]
      · exact fun hjam => hlt.ne hjam.1
    · rcases h.count_le.lt_or_eq with hlt | hfull
      · have hqueue := queued_type h hc hlt
        rintro ⟨hcount, hno⟩
        have hlen := congrArg List.length hqueue
        rw [queued_length, hcount, List.length_append, queued_length, List.length_singleton] at hlen
        rw [hqueue, List.mem_append, List.mem_singleton, not_or] at hno
        rcases hroom with hbs | rfl | hlast | hmem
        · exact hc hbs
        · exact hno.2 rfl
        · exact hlast hlen.symm
        · exact hno.1 hmem
      · rwa [push_full hc hfull]
  | @read len hnl =>
    obtain ⟨text, past, hedited⟩ := h
    have hqueue := (ttyCopy_copied len t hedited.read_lt).queue
    rintro ⟨hcount, hno⟩
    have hlen := congrArg List.length hqueue
    have hle := hedited.count_le
    rw [queued_length, List.length_append, queued_length, hcount] at hlen
    -- nothing was read, so the newline is still there
    have hnil : (ttyCopy t len).1 = [] := List.length_eq_zero_iff.mp (by omega)
    rw [hnil, List.nil_append] at hqueue
    exact hno (hqueue ▸ (hasNewline_iff t).mp hnl)

theorem jammed_break {t t' : TtyT} {e : TtyEvent} (h : Sound t) (hjams : ¬ LeavesRoom t e)
    (hstep : TtyStep t e t') : Jammed t' := by
  cases hstep with
  | @push c =>
    simp only [LeavesRoom, not_or, not_not] at hjams
    obtain ⟨hbs, hne, hlast, hno⟩ := hjams
    have hqueue := queued_type h hbs (by omega)
    refine ⟨?_, ?_⟩
    · rw [← queued_length, hqueue, List.length_append, queued_length, List.length_singleton, hlast]
    · rw [hqueue, List.mem_append, List.mem_singleton, not_or]
      exact ⟨hno, Ne.symm hne⟩
  | read => exact absurd trivial hjams

theorem always_free_iff (es : List TtyEvent) (t : TtyT) :
    Always TtyStep (fun t => ¬ Jammed t) ttyInit es t ↔ EachStep TtyStep LeavesRoom ttyInit es t :=
  Run.always_iff (I := fun t => Sound t ∧ ¬ Jammed t) (C := LeavesRoom) (R := TtyStep) (fun _ h => h.2)
    (fun _ _ _ h hstep => ⟨h.1.step hstep.2, jammed_keep h.1 h.2 hstep.1 hstep.2⟩)
    (fun _ _ _ h hjams hstep => not_not.mpr (jammed_break h.1 hjams hstep))
    ⟨sound_init, fun hjam => absurd hjam.1 (by decide)⟩

/-! ## Runs -/

/-- **Enter.**  In every state of a run of keystrokes and copy-outs Enter would
be queued, and the ring is never full without a newline, exactly when no
ordinary character of the run takes the last free slot while no newline is
queued. -/
theorem enter_iff (es : List TtyEvent) (t : TtyT) :
    (Always TtyStep EnterKept ttyInit es t ↔ EachStep TtyStep LeavesRoom ttyInit es t) ∧
      (Always TtyStep (fun t => ¬ Jammed t) ttyInit es t ↔
        EachStep TtyStep LeavesRoom ttyInit es t) := by
  have hfree := always_free_iff es t
  refine ⟨?_, hfree⟩
  rw [← hfree]
  have hiff : ∀ past u, Run TtyStep ttyInit past u → (EnterKept u ↔ ¬ Jammed u) :=
    fun past u hrun => enterKept_iff (.of_run hrun)
  constructor
  · intro h past rest u hsplit hpast hrest
    exact (hiff past u hpast).mp (h past rest u hsplit hpast hrest)
  · intro h past rest u hsplit hpast hrest
    exact (hiff past u hpast).mpr (h past rest u hsplit hpast hrest)

/-- Letters alone fill the ring. -/
theorem letters_run (n : Nat) (hn : n ≤ TTY_RING_SIZE) :
    ∃ es t, Run TtyStep ttyInit es t ∧ queued t = List.replicate n 97 := by
  induction n with
  | zero => exact ⟨[], ttyInit, .refl _, rfl⟩
  | succ n ih =>
    obtain ⟨es, t, hrun, hqueue⟩ := ih (Nat.le_of_succ_le hn)
    have hsound := Sound.of_run hrun
    have hcount : t.ringCount = n := by rw [← queued_length, hqueue, List.length_replicate]
    refine ⟨_, _, hrun.snoc (.push (c := 97)), ?_⟩
    rw [queued_type hsound (by decide) (hcount ▸ hn), hqueue, List.replicate_succ']

/-- After 256 letters Enter is lost. -/
theorem enter_lost : (¬ ∀ es t, Run TtyStep ttyInit es t → EnterKept t) ∧
    ¬ ∀ es t, Run TtyStep ttyInit es t → ¬ Jammed t := by
  obtain ⟨es, t, hrun, hqueue⟩ := letters_run TTY_RING_SIZE (Nat.le_refl _)
  have hsound := Sound.of_run hrun
  have hjam : Jammed t := by
    refine ⟨?_, ?_⟩
    · rw [← queued_length, hqueue, List.length_replicate]
    · rw [hqueue, List.mem_replicate]
      exact fun hmem => absurd hmem.2 (by decide)
  refine ⟨fun h => ?_, fun h => h es t hrun hjam⟩
  exact (enterKept_iff hsound).mp (h es t hrun) hjam

end FrogKernel.Tty
