import FrogKernel.Devices.Tty
import FrogKernel.Lib.Ring
import FrogKernel.Lib.Runs

/-!
# The terminal is a line editor

`tty_refines`: what all reads returned so far, followed by what is queued, is
the edited text of the accepted keystrokes, and a read returns a piece of the
first finished line.
-/

namespace FrogKernel.Tty

open FrogKernel.Ring FrogKernel.Runs

def queued (t : TtyT) : List (BitVec 8) := slots t.ring TTY_RING_SIZE t.ringRead t.ringCount

/-- `static tty_t tty = { 0 }` -/
def ttyInit : TtyT := { ring := fun _ => 0, ringRead := 0, ringWrite := 0, ringCount := 0, lineLen := 0 }

inductive TtyEvent where
  | push (c : BitVec 8) (accepted : Bool)
  | read (len : Nat) (bytes : List (BitVec 8))

/-- Keystrokes and copy-outs.  `tty_read` starts to copy once it has found a
newline. -/
inductive TtyStep : TtyT → TtyEvent → TtyT → Prop
  | push {t : TtyT} {c : BitVec 8} :
      TtyStep t (.push c (c = backspace ∨ t.ringCount < TTY_RING_SIZE)) (ttyInputPush t c).1
  | read {t : TtyT} {len : Nat} : hasNewline t = true →
      TtyStep t (.read len (ttyCopy t len).1) (ttyCopy t len).2

/-- The accepted keystrokes. -/
def accepted : List TtyEvent → List (BitVec 8)
  | [] => []
  | .push c true :: es => c :: accepted es
  | _ :: es => accepted es

/-- The bytes of all reads. -/
def returned : List TtyEvent → List (BitVec 8)
  | [] => []
  | .read _ bytes :: es => bytes ++ returned es
  | _ :: es => returned es

theorem accepted_append (es es' : List TtyEvent) : accepted (es ++ es') = accepted es ++ accepted es' := by
  induction es with
  | nil => rfl
  | cons e es ih =>
    rcases e with ⟨c, _ | _⟩ | ⟨len, bytes⟩
    · exact ih
    · exact congrArg (c :: ·) ih
    · exact ih

theorem returned_append (es es' : List TtyEvent) : returned (es ++ es') = returned es ++ returned es' := by
  induction es with
  | nil => rfl
  | cons e es ih =>
    cases e with
    | push => exact ih
    | read len bytes => simpa [returned] using ih

/-! ## The two loops of `tty_read` -/

theorem hasNewlineFrom_iff (t : TtyT) (n : Nat) : ∀ i, hasNewlineFrom t i n = true ↔
    newline ∈ slots t.ring TTY_RING_SIZE (t.ringRead + i) n := by
  induction n with
  | zero => simp [hasNewlineFrom]
  | succ n ih =>
    intro i
    have hslots : slots t.ring TTY_RING_SIZE ((t.ringRead + i + 1) % TTY_RING_SIZE) n =
        slots t.ring TTY_RING_SIZE (t.ringRead + (i + 1)) n := by
      simp [slots, Nat.add_assoc]
    rw [slots_succ, hslots, List.mem_cons, ← ih, hasNewlineFrom]
    split
    case isTrue heq => simp [heq]
    case isFalse hne => simp [Ne.symm hne]

theorem hasNewline_iff (t : TtyT) : hasNewline t = true ↔ newline ∈ queued t :=
  hasNewlineFrom_iff t t.ringCount 0

/-- What the copy loop takes off the queue. -/
structure Copied (t : TtyT) (len : Nat) (bytes : List (BitVec 8)) (t' : TtyT) : Prop where
  queue : queued t = bytes ++ queued t'
  line : ∀ line rest, queued t = line ++ newline :: rest → newline ∉ line →
    bytes = (line ++ [newline]).take len
  read_lt : t'.ringRead < TTY_RING_SIZE
  count_le : t'.ringCount ≤ t.ringCount
  write : (t'.ringRead + t'.ringCount) % TTY_RING_SIZE = (t.ringRead + t.ringCount) % TTY_RING_SIZE
  same : t'.ringWrite = t.ringWrite ∧ t'.lineLen = t.lineLen

/-- The ring without its first byte. -/
def popped (t : TtyT) : TtyT :=
  { t with ringRead := (t.ringRead + 1) % TTY_RING_SIZE, ringCount := t.ringCount - 1 }

theorem ttyCopy_succ {t : TtyT} (hcount : t.ringCount ≠ 0) (len : Nat) :
    ttyCopy t (len + 1) =
      if t.ring t.ringRead = newline then ([t.ring t.ringRead], popped t)
      else (t.ring t.ringRead :: (ttyCopy (popped t) len).1, (ttyCopy (popped t) len).2) := by
  rw [ttyCopy, if_neg hcount]
  rfl

theorem queued_popped {t : TtyT} (hread : t.ringRead < TTY_RING_SIZE) (hcount : t.ringCount ≠ 0) :
    queued t = t.ring t.ringRead :: queued (popped t) := by
  obtain ⟨count, hcount⟩ := Nat.exists_eq_succ_of_ne_zero hcount
  rw [queued, hcount, slots_succ, Nat.mod_eq_of_lt hread, queued, popped, hcount]
  rfl

theorem popped_write {t : TtyT} (hcount : t.ringCount ≠ 0) :
    ((popped t).ringRead + (popped t).ringCount) % TTY_RING_SIZE =
      (t.ringRead + t.ringCount) % TTY_RING_SIZE := by
  simp only [popped, Nat.mod_add_mod]
  congr 1
  omega

theorem ttyCopy_copied (len : Nat) : ∀ t : TtyT, t.ringRead < TTY_RING_SIZE →
    Copied t len (ttyCopy t len).1 (ttyCopy t len).2 := by
  induction len with
  | zero =>
    intro t hread
    exact ⟨rfl, fun _ _ _ _ => rfl, hread, Nat.le_refl _, rfl, rfl, rfl⟩
  | succ len ih =>
    intro t hread
    by_cases hcount : t.ringCount = 0
    · rw [ttyCopy, if_pos hcount]
      refine ⟨rfl, fun line rest hq _ => ?_, hread, Nat.le_refl _, rfl, rfl, rfl⟩
      simp [queued, hcount] at hq
    have hqueue := queued_popped hread hcount
    have hwrite := popped_write hcount
    have hread' : (popped t).ringRead < TTY_RING_SIZE := Nat.mod_lt _ (by decide)
    have hle : (popped t).ringCount ≤ t.ringCount := Nat.sub_le ..
    rw [ttyCopy_succ hcount]
    split
    case isTrue hnl =>
      refine ⟨hqueue, fun line rest hq hline => ?_, hread', hle, hwrite, rfl, rfl⟩
      rw [hqueue, hnl] at hq
      cases line with
      | nil => simp [hnl]
      | cons c line =>
        obtain ⟨rfl, -⟩ := List.cons.inj hq
        simp at hline
    case isFalse hnl =>
      have h := ih (popped t) hread'
      refine ⟨?_, fun line rest hq hline => ?_, h.read_lt, h.count_le.trans hle,
        h.write.trans hwrite, h.same⟩
      · rw [hqueue, h.queue]
        rfl
      · rw [hqueue] at hq
        cases line with
        | nil => exact absurd (List.cons.inj hq).1 hnl
        | cons c line =>
          obtain ⟨rfl, htail⟩ := List.cons.inj hq
          have hbytes := h.line line rest htail fun hmem => hline (List.mem_cons_of_mem _ hmem)
          simp [hbytes]

/-! ## The invariant -/

/-- `text` is everything typed and not erased; its unfinished line is still in
the ring. -/
structure Edited (text : List (BitVec 8)) (past : List TtyEvent) (t : TtyT) : Prop where
  split : returned past ++ queued t = text
  read_lt : t.ringRead < TTY_RING_SIZE
  write : t.ringWrite = (t.ringRead + t.ringCount) % TTY_RING_SIZE
  count_le : t.ringCount ≤ TTY_RING_SIZE
  lineLen : t.lineLen = (unfinished newline text).length
  line_le : t.lineLen ≤ t.ringCount

/-- A keystroke that changes nothing. -/
theorem Edited.same {text : List (BitVec 8)} {past past' : List TtyEvent} {t : TtyT}
    (h : Edited text past t) (hpast : returned past' = returned past) : Edited text past' t :=
  { h with split := hpast ▸ h.split }

theorem Edited.unfinished_eq_nil {text : List (BitVec 8)} {past : List TtyEvent} {t : TtyT}
    (h : Edited text past t) : unfinished newline text = [] ↔ t.lineLen = 0 := by
  rw [h.lineLen, List.length_eq_zero_iff]

/-- The last character of the unfinished line is taken back. -/
theorem edited_erase {text : List (BitVec 8)} {past : List TtyEvent} {t : TtyT}
    (h : Edited text past t) (hline : t.lineLen ≠ 0) :
    Edited text.dropLast past { t with
      ringWrite := (t.ringWrite + TTY_RING_SIZE - 1) % TTY_RING_SIZE
      ringCount := t.ringCount - 1
      lineLen := t.lineLen - 1 } := by
  have hle := h.line_le
  have hsize := h.count_le
  obtain ⟨count, hcount⟩ := Nat.exists_eq_succ_of_ne_zero (n := t.ringCount) (by omega)
  have hqueue : queued t = slots t.ring TTY_RING_SIZE t.ringRead count ++
      [t.ring ((t.ringRead + count) % TTY_RING_SIZE)] := by
    rw [queued, hcount, slots_concat]
  have htext : text.dropLast = returned past ++ slots t.ring TTY_RING_SIZE t.ringRead count := by
    rw [← h.split, hqueue, ← List.append_assoc, List.dropLast_concat]
  refine ⟨?_, h.read_lt, ?_, ?_, ?_, ?_⟩
  · rw [htext]
    simp only [queued, hcount, Nat.succ_eq_add_one, Nat.add_sub_cancel]
  · have hwrite := h.write
    dsimp only
    rw [hwrite, hcount, TTY_RING_SIZE]
    omega
  · dsimp only
    omega
  · have hne : unfinished newline text ≠ [] := fun hnil => hline (h.unfinished_eq_nil.mp hnil)
    rw [unfinished_dropLast hne, List.length_dropLast, ← h.lineLen]
  · dsimp only
    omega

/-- A character goes into the ring. -/
theorem edited_type {text : List (BitVec 8)} {past : List TtyEvent} {t : TtyT}
    (h : Edited text past t) (hroom : t.ringCount < TTY_RING_SIZE) (c : BitVec 8) :
    Edited (text ++ [c]) past { t with
      ring := Function.update t.ring t.ringWrite c
      ringWrite := (t.ringWrite + 1) % TTY_RING_SIZE
      ringCount := t.ringCount + 1
      lineLen := if c = newline then 0 else t.lineLen + 1 } := by
  refine ⟨?_, h.read_lt, ?_, hroom, ?_, ?_⟩
  · rw [← h.split, List.append_assoc]
    congr 1
    simp only [queued, h.write]
    exact slots_push hroom c
  · dsimp only
    rw [h.write, Nat.mod_add_mod]
    rfl
  · rw [unfinished_concat, h.lineLen]
    split
    · rfl
    · rw [List.length_append]
      rfl
  · have hle := h.line_le
    dsimp only
    split <;> omega

theorem edited_push {text : List (BitVec 8)} {past : List TtyEvent} {t : TtyT}
    (h : Edited text past t) (c : BitVec 8) :
    Edited (if c = backspace ∨ t.ringCount < TTY_RING_SIZE then edit newline backspace text c
      else text) past (ttyInputPush t c).1 := by
  unfold ttyInputPush edit
  by_cases hc : c = backspace
  · rw [if_pos (Or.inl hc), if_pos hc, if_pos hc]
    by_cases hline : t.lineLen = 0
    · rw [if_pos hline, if_pos (h.unfinished_eq_nil.mpr hline)]
      exact h
    · have hcount : t.ringCount > 0 := by
        have hle := h.line_le
        omega
      rw [if_neg hline, if_pos hcount, if_neg fun hnil => hline (h.unfinished_eq_nil.mp hnil)]
      exact edited_erase h hline
  · rw [if_neg hc, if_neg hc]
    by_cases hroom : t.ringCount < TTY_RING_SIZE
    · rw [if_pos (Or.inr hroom), if_neg (Nat.not_le.mpr hroom)]
      exact edited_type h hroom c
    · rw [if_neg (not_or.mpr ⟨hc, hroom⟩), if_pos (Nat.not_lt.mp hroom)]
      exact h

/-- The bytes of a read come from the first finished line. -/
theorem edited_read {text : List (BitVec 8)} {past : List TtyEvent} {t : TtyT}
    (h : Edited text past t) (hnl : hasNewline t = true) (len : Nat) :
    Edited text (past ++ [.read len (ttyCopy t len).1]) (ttyCopy t len).2 := by
  have hcopy := ttyCopy_copied len t h.read_lt
  obtain ⟨line, rest, hqueue, hline⟩ := List.eq_append_cons_of_mem ((hasNewline_iff t).mp hnl)
  have hbytes := hcopy.line line rest hqueue hline
  -- the unfinished line is behind the newline
  have htext : unfinished newline text = unfinished newline rest := by
    rw [← h.split, hqueue, ← List.append_assoc, unfinished_append]
  have hrest : rest.length ≤ (ttyCopy t len).2.ringCount := by
    have hlen : (queued t).length = (ttyCopy t len).1.length + (ttyCopy t len).2.ringCount := by
      rw [hcopy.queue, List.length_append, queued, slots_length]
    have htaken : (ttyCopy t len).1.length ≤ line.length + 1 := by
      rw [hbytes, List.length_take]
      simp
    rw [hqueue] at hlen
    simp only [List.length_append, List.length_cons] at hlen
    omega
  refine ⟨?_, hcopy.read_lt, ?_, hcopy.count_le.trans h.count_le, ?_, ?_⟩
  · rw [returned_append, List.append_assoc, ← h.split, hcopy.queue]
    simp [returned]
  · rw [hcopy.same.1, h.write, hcopy.write]
  · rw [hcopy.same.2]
    exact h.lineLen
  · rw [hcopy.same.2, h.lineLen, htext]
    exact (unfinished_length_le newline rest).trans hrest

/-! ## Runs -/

/-- The text of the accepted keystrokes. -/
def editedText (es : List TtyEvent) : List (BitVec 8) :=
  (accepted es).foldl (edit newline backspace) []

theorem editedText_snoc (es : List TtyEvent) (e : TtyEvent) :
    editedText (es ++ [e]) = (accepted [e]).foldl (edit newline backspace) (editedText es) := by
  rw [editedText, accepted_append, List.foldl_append]
  rfl

theorem edited_step {past : List TtyEvent} {e : TtyEvent} {t t' : TtyT}
    (h : Edited (editedText past) past t) (hstep : TtyStep t e t') :
    Edited (editedText (past ++ [e])) (past ++ [e]) t' := by
  rw [editedText_snoc]
  cases hstep with
  | @push c =>
    refine @Edited.same _ past _ _ ?_ ?_
    · have hpush := edited_push h c
      split at hpush
      case isTrue ha => simpa [accepted, ha] using hpush
      case isFalse ha => simpa [accepted, ha] using hpush
    · simp [returned_append, returned]
  | @read len hnl => exact edited_read h hnl len

theorem edited_run {es : List TtyEvent} {t : TtyT} (hrun : Run TtyStep ttyInit es t) :
    Edited (editedText es) es t := by
  have h₀ : Edited (editedText []) [] ttyInit :=
    ⟨rfl, by decide, rfl, by decide, rfl, Nat.le_refl _⟩
  have h := hrun.history (I := fun past t => Edited (editedText past) past t)
    (fun _ _ _ _ => edited_step) h₀
  rwa [List.nil_append] at h

/-- **The terminal.**  For every interleaving of keystrokes and copy-outs the
bytes returned so far and the bytes queued are the edited text, the indices of
the ring agree, and every read returns the first `len` bytes of the first
finished line and takes these bytes off the queue. -/
theorem tty_refines {es : List TtyEvent} {t : TtyT} (hrun : Run TtyStep ttyInit es t) :
    returned es ++ queued t = (accepted es).foldl (edit newline backspace) [] ∧
      t.ringWrite = (t.ringRead + t.ringCount) % TTY_RING_SIZE ∧ t.ringCount ≤ TTY_RING_SIZE ∧
      ∀ len bytes t', TtyStep t (.read len bytes) t' →
        ∃ line rest, queued t = line ++ newline :: rest ∧ newline ∉ line ∧
          bytes = (line ++ [newline]).take len ∧ queued t = bytes ++ queued t' := by
  have h := edited_run hrun
  refine ⟨h.split, h.write, h.count_le, fun len bytes t' hstep => ?_⟩
  cases hstep with
  | read hnl =>
    have hcopy := ttyCopy_copied len t h.read_lt
    obtain ⟨line, rest, hqueue, hline⟩ := List.eq_append_cons_of_mem ((hasNewline_iff t).mp hnl)
    exact ⟨line, rest, hqueue, hline, hcopy.line line rest hqueue hline, hcopy.queue⟩

/-- `a`, `b`, an erase and a newline, then a read of up to five bytes. -/
theorem typedLine_refines : ∃ es t, Run TtyStep ttyInit es t ∧ returned es = [97, newline] ∧
    returned es ++ queued t = (accepted es).foldl (edit newline backspace) [] := by
  have hrun := Run.step (TtyStep.push (t := ttyInit) (c := 97)) <| .step (.push (c := 98)) <|
    .step (.push (c := backspace)) <| .step (.push (c := newline)) <|
    .step (.read (by decide)) (.refl (ttyCopy _ 5).2)
  exact ⟨_, _, hrun, by decide, (tty_refines hrun).1⟩

end FrogKernel.Tty
