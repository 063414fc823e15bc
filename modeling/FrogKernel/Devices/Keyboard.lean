import FrogKernel.Lib.CStrings
import Mathlib.Logic.Function.Basic

/-!
# The keyboard (`devices/keyboard/keyboard.c`)

`keyboard_callback` takes one byte of the scancodes at a time.  It keeps a flag
for the prefix `0xe0`, a bit for each modifier key, and a ring of the characters
pressed and released.

Main result: `keyboard_events`, the callback reads the bytes as key events.
-/

namespace FrogKernel.Keyboard

open FrogKernel.CStrings (ch)

def KEYBOARD_BUF_SIZE : Nat := 64
def KEY_RELEASED : BitVec 8 := 0x80

def L_SHIFT : BitVec 32 := 1 <<< 0
def R_SHIFT : BitVec 32 := 1 <<< 1
def L_CTRL : BitVec 32 := 1 <<< 2
def R_CTRL : BitVec 32 := 1 <<< 3
def L_ALT : BitVec 32 := 1 <<< 4
def R_ALT : BitVec 32 := 1 <<< 5

def scancodeMap : List (BitVec 8) := [
  0, 0, ch '1', ch '2', ch '3', ch '4', ch '5', ch '6', ch '7', ch '8', ch '9', ch '0', ch '-',
  ch '=', 8,
  9, ch 'q', ch 'w', ch 'e', ch 'r', ch 't', ch 'y', ch 'u', ch 'i', ch 'o', ch 'p', ch '[', ch ']',
  10,
  0, ch 'a', ch 's', ch 'd', ch 'f', ch 'g', ch 'h', ch 'j', ch 'k', ch 'l', ch ';', 39, 96,
  0, 92, ch 'z', ch 'x', ch 'c', ch 'v', ch 'b', ch 'n', ch 'm', ch ',', ch '.', ch '/', 0,
  ch '*', 0, ch ' ']

/-- The braces and the quotes are written as numbers. -/
def scancodeMapShift : List (BitVec 8) := [
  0, 0, ch '!', ch '@', ch '#', ch '$', ch '%', ch '^', ch '&', ch '*', ch '(', ch ')', ch '_',
  ch '+', 8,
  9, ch 'Q', ch 'W', ch 'E', ch 'R', ch 'T', ch 'Y', ch 'U', ch 'I', ch 'O', ch 'P', 123, 125,
  10,
  0, ch 'A', ch 'S', ch 'D', ch 'F', ch 'G', ch 'H', ch 'J', ch 'K', ch 'L', ch ':', 34, ch '~',
  0, ch '|', ch 'Z', ch 'X', ch 'C', ch 'V', ch 'B', ch 'N', ch 'M', ch '<', ch '>', ch '?', 0,
  ch '*', 0, ch ' ']

structure KeyboardBuf where
  buf : Nat → BitVec 8
  head : Nat
  tail : Nat

/-- `keyboard.mods`, `keyboard_buf`, `keyboard_dirty` and `extended`. -/
structure KeyboardT where
  mods : BitVec 32
  keyboardBuf : KeyboardBuf
  keyboardDirty : Bool
  extended : Bool

def keyboardInit : KeyboardT where
  mods := 0
  keyboardBuf := { buf := fun _ => 0, head := 0, tail := 0 }
  keyboardDirty := false
  extended := false

def bufPush (b : KeyboardBuf) (c released : BitVec 8) : KeyboardBuf :=
  let next := (b.head + 1) % KEYBOARD_BUF_SIZE
  if next = b.tail then b
  else
    { b with
      buf := Function.update b.buf b.head (if released ≠ 0 then c ||| KEY_RELEASED else c)
      head := next }

def setMods (s : KeyboardT) (released : BitVec 8) (m : BitVec 32) : KeyboardT :=
  { s with mods := if released ≠ 0 then s.mods &&& ~~~m else s.mods ||| m }

/-- `keyboard_callback` with the byte read from the port, and the character it
passes to `tty_input_push`. -/
def keyboardCallback (s : KeyboardT) (scancode : BitVec 8) : KeyboardT × Option (BitVec 8) :=
  if scancode = 0xe0 then ({ s with extended := true }, none)
  else
    let released := scancode &&& KEY_RELEASED
    let scancode := scancode &&& ~~~KEY_RELEASED
    if s.extended then
      let s := { s with extended := false }
      if scancode = 0x1d then (setMods s released R_CTRL, none)
      else if scancode = 0x38 then (setMods s released R_ALT, none)
      else (s, none)
    else if scancode = 0x2a then (setMods s released L_SHIFT, none)
    else if scancode = 0x36 then (setMods s released R_SHIFT, none)
    else if scancode = 0x1d then (setMods s released L_CTRL, none)
    else if scancode = 0x38 then (setMods s released L_ALT, none)
    else if scancode.toNat ≥ scancodeMap.length then (s, none)
    else
      let c := if s.mods &&& (L_SHIFT ||| R_SHIFT) ≠ 0 then scancodeMapShift.getD scancode.toNat 0
        else scancodeMap.getD scancode.toNat 0
      if c = 0 then (s, none)
      else
        ({ s with keyboardBuf := bufPush s.keyboardBuf c released, keyboardDirty := true },
          if released = 0 then some c else none)

/-- The callback on a sequence of bytes, and the characters passed on. -/
def feed (s : KeyboardT) : List (BitVec 8) → KeyboardT × List (BitVec 8)
  | [] => (s, [])
  | b :: bs =>
    let r := keyboardCallback s b
    let rest := feed r.1 bs
    (rest.1, r.2.toList ++ rest.2)

/-! ## Bytes as events -/

structure Event where
  code : BitVec 8
  make : Bool
  extended : Bool

/-- The event of a byte behind the byte `prev`. -/
def event (prev b : BitVec 8) : Event where
  code := b &&& 0x7f
  make := b < 0x80
  extended := prev = 0xe0

def events (prev : BitVec 8) : List (BitVec 8) → List Event
  | [] => []
  | b :: bs => if b = 0xe0 then events b bs else event prev b :: events b bs

inductive Key where
  | leftShift
  | rightShift
  | leftCtrl
  | rightCtrl
  | leftAlt
  | rightAlt
  deriving DecidableEq

def Key.bit : Key → BitVec 32
  | .leftShift => L_SHIFT
  | .rightShift => R_SHIFT
  | .leftCtrl => L_CTRL
  | .rightCtrl => R_CTRL
  | .leftAlt => L_ALT
  | .rightAlt => R_ALT

/-- The modifier key of an event. -/
def Event.key (e : Event) : Option Key :=
  if e.extended then
    if e.code = 0x1d then some .rightCtrl
    else if e.code = 0x38 then some .rightAlt
    else none
  else if e.code = 0x2a then some .leftShift
  else if e.code = 0x36 then some .rightShift
  else if e.code = 0x1d then some .leftCtrl
  else if e.code = 0x38 then some .leftAlt
  else none

/-- The last event of the key was a make. -/
def held (es : List Event) (k : Key) : Bool :=
  ((es.filter fun e => e.key = some k).getLast?.map Event.make).getD false

/-- The character of an event behind the events `past`. -/
def Event.char (past : List Event) (e : Event) : Option (BitVec 8) :=
  if e.make ∧ ¬ e.extended ∧ e.key = none then
    ((if held past .leftShift ∨ held past .rightShift then scancodeMapShift
      else scancodeMap)[e.code.toNat]?).filter (· ≠ 0)
  else none

def typed (past : List Event) : List Event → List (BitVec 8)
  | [] => []
  | e :: es => (e.char past).toList ++ typed (past ++ [e]) es

/-! ## Modifiers -/

theorem held_snoc (es : List Event) (e : Event) (k : Key) :
    held (es ++ [e]) k = if e.key = some k then e.make else held es k := by
  unfold held
  rw [List.filter_append]
  by_cases h : e.key = some k
  · rw [List.filter_cons_of_pos (by simpa using h), if_pos h]
    simp
  · rw [List.filter_cons_of_neg (by simpa using h), if_neg h]
    simp

theorem bit_and_bit (k k' : Key) : k.bit &&& k'.bit ≠ 0 ↔ k = k' := by
  cases k <;> cases k' <;> decide

theorem not_bit_and_bit {k k' : Key} (h : k ≠ k') : ~~~k.bit &&& k'.bit = k'.bit := by
  cases k <;> cases k' <;> first | exact absurd rfl h | decide

theorem or_bit (mods : BitVec 32) (k k' : Key) :
    (mods ||| k.bit) &&& k'.bit ≠ 0 ↔ k = k' ∨ mods &&& k'.bit ≠ 0 := by
  rw [BitVec.and_or_distrib_right, ← bit_and_bit k k']
  exact (not_congr BitVec.or_eq_zero_iff).trans (not_and_or.trans or_comm)

theorem and_not_bit (mods : BitVec 32) (k k' : Key) :
    (mods &&& ~~~k.bit) &&& k'.bit ≠ 0 ↔ k ≠ k' ∧ mods &&& k'.bit ≠ 0 := by
  rw [BitVec.and_assoc]
  by_cases h : k = k'
  · subst h
    simp
  · rw [not_bit_and_bit h, and_iff_right h]

/-- The test of `keyboard_callback` for a shifted character. -/
theorem shift_bits (mods : BitVec 32) :
    mods &&& (L_SHIFT ||| R_SHIFT) ≠ 0 ↔
      mods &&& Key.leftShift.bit ≠ 0 ∨ mods &&& Key.rightShift.bit ≠ 0 := by
  rw [BitVec.and_or_distrib_left]
  exact (not_congr BitVec.or_eq_zero_iff).trans not_and_or

/-- The callback knows the modifiers and the prefix. -/
structure Tracks (past : List Event) (prev : BitVec 8) (s : KeyboardT) : Prop where
  mods : ∀ k : Key, s.mods &&& k.bit ≠ 0 ↔ held past k = true
  extended : s.extended = decide (prev = 0xe0)

/-! ## One byte -/

theorem scancode_code : ∀ b : BitVec 8, b &&& ~~~KEY_RELEASED = b &&& 0x7f := by
  decide +kernel

theorem released_iff : ∀ b : BitVec 8, b &&& KEY_RELEASED = 0 ↔ b < 0x80 := by
  decide +kernel

variable {past : List Event} {prev : BitVec 8} {s : KeyboardT}

/-- A byte behind another one, for the prefix flag. -/
theorem extended_eq {b : BitVec 8} (hb : b ≠ 0xe0) : false = decide (b = 0xe0) :=
  (decide_eq_false hb).symm

theorem setMods_held {s : KeyboardT} (h : ∀ k : Key, s.mods &&& k.bit ≠ 0 ↔ held past k = true)
    {b : BitVec 8} {k : Key} (hkey : (event prev b).key = some k) (k' : Key) :
    (setMods s (b &&& KEY_RELEASED) k.bit).mods &&& k'.bit ≠ 0 ↔
      held (past ++ [event prev b]) k' = true := by
  rw [held_snoc, hkey, setMods]
  by_cases hmake : b < 0x80
  · rw [if_neg (not_not.mpr ((released_iff b).mpr hmake)), or_bit, h]
    by_cases hk : k = k'
    · rw [if_pos (congrArg some hk)]
      exact iff_of_true (Or.inl hk) (decide_eq_true hmake)
    · rw [if_neg (fun heq => hk (Option.some.inj heq)), or_iff_right hk]
  · rw [if_pos (fun h0 => hmake ((released_iff b).mp h0)), and_not_bit, h]
    by_cases hk : k = k'
    · rw [if_pos (congrArg some hk)]
      exact iff_of_false (fun hand => hand.1 hk) fun hdec => hmake (of_decide_eq_true hdec)
    · rw [if_neg (fun heq => hk (Option.some.inj heq)), and_iff_right hk]

theorem same_held {s : KeyboardT} (h : ∀ k : Key, s.mods &&& k.bit ≠ 0 ↔ held past k = true)
    {b : BitVec 8} (hkey : (event prev b).key = none) (k : Key) :
    s.mods &&& k.bit ≠ 0 ↔ held (past ++ [event prev b]) k = true := by
  rw [held_snoc, hkey, if_neg (Option.some_ne_none k).symm]
  exact h k

/-- A modifier key types nothing. -/
theorem char_modifier {e : Event} {k : Key} (hkey : e.key = some k) : e.char past = none := by
  rw [Event.char, hkey, if_neg]
  rintro ⟨-, -, hnone⟩
  exact Option.some_ne_none k hnone

theorem char_extended {e : Event} (hext : e.extended = true) : e.char past = none :=
  if_neg fun h => h.2.1 hext

theorem callback_of_extended {b : BitVec 8} (hb : b ≠ 0xe0) (hext : s.extended = true) :
    keyboardCallback s b =
      if b &&& 0x7f = 0x1d then
        (setMods { s with extended := false } (b &&& KEY_RELEASED) Key.rightCtrl.bit, none)
      else if b &&& 0x7f = 0x38 then
        (setMods { s with extended := false } (b &&& KEY_RELEASED) Key.rightAlt.bit, none)
      else ({ s with extended := false }, none) := by
  rw [keyboardCallback, if_neg hb]
  simp only [scancode_code, hext, if_true, Key.bit]

theorem event_key_extended {b : BitVec 8} (hext : (event prev b).extended = true) :
    (event prev b).key = if b &&& 0x7f = 0x1d then some .rightCtrl
      else if b &&& 0x7f = 0x38 then some .rightAlt else none := by
  rw [Event.key, if_pos hext]
  rfl

/-- An extended event. -/
theorem callback_extended (h : Tracks past prev s) {b : BitVec 8} (hb : b ≠ 0xe0)
    (hprev : prev = 0xe0) :
    Tracks (past ++ [event prev b]) b (keyboardCallback s b).1 ∧
      (keyboardCallback s b).2 = (event prev b).char past := by
  have hext : (event prev b).extended = true := decide_eq_true hprev
  have hkey := event_key_extended hext
  rw [char_extended hext, callback_of_extended hb (h.extended.trans (decide_eq_true hprev))]
  by_cases hctrl : b &&& 0x7f = 0x1d
  · rw [if_pos hctrl] at hkey ⊢
    exact ⟨⟨setMods_held (s := { s with extended := false }) h.mods hkey, extended_eq hb⟩, rfl⟩
  rw [if_neg hctrl] at hkey ⊢
  by_cases halt : b &&& 0x7f = 0x38
  · rw [if_pos halt] at hkey ⊢
    exact ⟨⟨setMods_held (s := { s with extended := false }) h.mods hkey, extended_eq hb⟩, rfl⟩
  · rw [if_neg halt] at hkey ⊢
    exact ⟨⟨same_held h.mods hkey, extended_eq hb⟩, rfl⟩

theorem event_key_plain {b : BitVec 8} (hext : (event prev b).extended = false) :
    (event prev b).key = if b &&& 0x7f = 0x2a then some .leftShift
      else if b &&& 0x7f = 0x36 then some .rightShift
      else if b &&& 0x7f = 0x1d then some .leftCtrl
      else if b &&& 0x7f = 0x38 then some .leftAlt else none := by
  rw [Event.key, if_neg (by rw [hext]; decide)]
  rfl

/-- What is left when no modifier key was read. -/
def charCallback (s : KeyboardT) (b : BitVec 8) : KeyboardT × Option (BitVec 8) :=
  if (b &&& 0x7f).toNat ≥ scancodeMap.length then (s, none)
  else
    let c := if s.mods &&& (L_SHIFT ||| R_SHIFT) ≠ 0 then
        scancodeMapShift.getD (b &&& 0x7f).toNat 0
      else scancodeMap.getD (b &&& 0x7f).toNat 0
    if c = 0 then (s, none)
    else
      ({ s with keyboardBuf := bufPush s.keyboardBuf c (b &&& KEY_RELEASED), keyboardDirty := true },
        if b &&& KEY_RELEASED = 0 then some c else none)

theorem callback_of_plain {b : BitVec 8} (hb : b ≠ 0xe0) (hext : s.extended = false) :
    keyboardCallback s b =
      if b &&& 0x7f = 0x2a then (setMods s (b &&& KEY_RELEASED) Key.leftShift.bit, none)
      else if b &&& 0x7f = 0x36 then (setMods s (b &&& KEY_RELEASED) Key.rightShift.bit, none)
      else if b &&& 0x7f = 0x1d then (setMods s (b &&& KEY_RELEASED) Key.leftCtrl.bit, none)
      else if b &&& 0x7f = 0x38 then (setMods s (b &&& KEY_RELEASED) Key.leftAlt.bit, none)
      else charCallback s b := by
  obtain ⟨mods, keyboardBuf, keyboardDirty, extended⟩ := s
  obtain rfl : extended = false := hext
  rw [keyboardCallback, if_neg hb]
  simp only [scancode_code, Bool.false_eq_true, if_false, Key.bit]
  rfl

/-- Both maps have the same length. -/
theorem map_lookup (shifted : Prop) [Decidable shifted] (code : Nat) :
    ((if shifted then scancodeMapShift else scancodeMap)[code]?).filter (· ≠ 0) =
      if code ≥ scancodeMap.length then none
      else
        let c := if shifted then scancodeMapShift.getD code 0 else scancodeMap.getD code 0
        if c = 0 then none else some c := by
  have hlen : (if shifted then scancodeMapShift else scancodeMap).length = scancodeMap.length := by
    split <;> rfl
  have hget : (if shifted then scancodeMapShift.getD code 0 else scancodeMap.getD code 0) =
      (if shifted then scancodeMapShift else scancodeMap).getD code 0 := by
    split <;> rfl
  rw [hget, ← hlen]
  generalize (if shifted then scancodeMapShift else scancodeMap) = map
  by_cases hcode : code ≥ map.length
  · rw [if_pos hcode, List.getElem?_eq_none hcode]
    rfl
  · have hlt : code < map.length := Nat.not_le.mp hcode
    rw [if_neg hcode, List.getD_eq_getElem?_getD, List.getElem?_eq_getElem hlt]
    dsimp only [Option.getD_some]
    by_cases hc : map[code] = 0
    · rw [if_pos hc, Option.filter_some, if_neg (by simpa using hc)]
    · rw [if_neg hc, Option.filter_some, if_pos (by simpa using hc)]

/-- A character pressed or released. -/
theorem charCallback_spec (h : Tracks past prev s) {b : BitVec 8} (hb : b ≠ 0xe0)
    (hext : (event prev b).extended = false) (hkey : (event prev b).key = none) :
    Tracks (past ++ [event prev b]) b (charCallback s b).1 ∧
      (charCallback s b).2 = (event prev b).char past := by
  have hflag : s.extended = decide (b = 0xe0) :=
    h.extended.trans (hext.trans (extended_eq hb))
  have hheld : ∀ k : Key, s.mods &&& k.bit ≠ 0 ↔ held (past ++ [event prev b]) k = true :=
    same_held h.mods hkey
  have hshift : (held past .leftShift = true ∨ held past .rightShift = true) ↔
      s.mods &&& (L_SHIFT ||| R_SHIFT) ≠ 0 := by
    rw [shift_bits, h.mods, h.mods]
  have hcode : (event prev b).code = b &&& 0x7f := rfl
  have hmake : (event prev b).make = true ↔ b &&& KEY_RELEASED = 0 :=
    decide_eq_true_iff.trans (released_iff b).symm
  rw [Event.char, map_lookup, charCallback, hext, hkey, hcode]
  simp only [hshift, hmake, Bool.false_eq_true, not_false_eq_true, and_true]
  generalize (if s.mods &&& (L_SHIFT ||| R_SHIFT) ≠ 0 then
    scancodeMapShift.getD (b &&& 0x7f).toNat 0 else scancodeMap.getD (b &&& 0x7f).toNat 0) = c
  by_cases hlen : (b &&& 0x7f).toNat ≥ scancodeMap.length
  · rw [if_pos hlen, if_pos hlen, ite_self]
    exact ⟨⟨hheld, hflag⟩, rfl⟩
  rw [if_neg hlen, if_neg hlen]
  by_cases hc : c = 0
  · rw [if_pos hc, if_pos hc, ite_self]
    exact ⟨⟨hheld, hflag⟩, rfl⟩
  · rw [if_neg hc, if_neg hc]
    exact ⟨⟨hheld, hflag⟩, rfl⟩

/-- An event that is not extended. -/
theorem callback_plain (h : Tracks past prev s) {b : BitVec 8} (hb : b ≠ 0xe0)
    (hprev : prev ≠ 0xe0) :
    Tracks (past ++ [event prev b]) b (keyboardCallback s b).1 ∧
      (keyboardCallback s b).2 = (event prev b).char past := by
  have hext : (event prev b).extended = false := decide_eq_false hprev
  have hflag : s.extended = decide (b = 0xe0) :=
    h.extended.trans (hext.trans (extended_eq hb))
  have hkey := event_key_plain hext
  have hmodifier : ∀ k : Key, (event prev b).key = some k →
      Tracks (past ++ [event prev b]) b (setMods s (b &&& KEY_RELEASED) k.bit) ∧
        none = (event prev b).char past := fun k hk =>
    ⟨⟨setMods_held h.mods hk, hflag⟩, (char_modifier hk).symm⟩
  rw [callback_of_plain hb (h.extended.trans hext)]
  by_cases h1 : b &&& 0x7f = 0x2a
  · rw [if_pos h1] at hkey ⊢
    exact hmodifier _ hkey
  rw [if_neg h1] at hkey ⊢
  by_cases h2 : b &&& 0x7f = 0x36
  · rw [if_pos h2] at hkey ⊢
    exact hmodifier _ hkey
  rw [if_neg h2] at hkey ⊢
  by_cases h3 : b &&& 0x7f = 0x1d
  · rw [if_pos h3] at hkey ⊢
    exact hmodifier _ hkey
  rw [if_neg h3] at hkey ⊢
  by_cases h4 : b &&& 0x7f = 0x38
  · rw [if_pos h4] at hkey ⊢
    exact hmodifier _ hkey
  rw [if_neg h4] at hkey ⊢
  exact charCallback_spec h hb hext hkey

/-- **One byte.**  The prefix is no event; any other byte is one. -/
theorem callback_event (h : Tracks past prev s) {b : BitVec 8} (hb : b ≠ 0xe0) :
    Tracks (past ++ [event prev b]) b (keyboardCallback s b).1 ∧
      (keyboardCallback s b).2 = (event prev b).char past := by
  by_cases hprev : prev = 0xe0
  · exact callback_extended h hb hprev
  · exact callback_plain h hb hprev

/-! ## All bytes -/

theorem feed_events (h : Tracks past prev s) (bytes : List (BitVec 8)) :
    (∀ k : Key, (feed s bytes).1.mods &&& k.bit ≠ 0 ↔
      held (past ++ events prev bytes) k = true) ∧
      (feed s bytes).2 = typed past (events prev bytes) := by
  induction bytes generalizing past prev s with
  | nil =>
    rw [events, List.append_nil]
    exact ⟨h.mods, rfl⟩
  | cons b bytes ih =>
    rw [feed, events]
    by_cases hb : b = 0xe0
    · subst hb
      have htracks : Tracks past 0xe0 (keyboardCallback s 0xe0).1 := ⟨h.mods, rfl⟩
      have hnone : (keyboardCallback s 0xe0).2 = none := rfl
      rw [if_pos rfl, hnone]
      exact ih htracks
    · obtain ⟨htracks, hchar⟩ := callback_event h hb
      obtain ⟨hmods, htyped⟩ := ih htracks
      rw [if_neg hb, typed, hchar, htyped]
      rw [List.append_assoc, List.singleton_append] at hmods
      exact ⟨hmods, rfl⟩

/-- **The keyboard.**  After any bytes from the start on, a bit of `mods` is set
exactly when the last event of its key was a make, and the characters passed on
are those of the events. -/
theorem keyboard_events (bytes : List (BitVec 8)) :
    (∀ k : Key, (feed keyboardInit bytes).1.mods &&& k.bit ≠ 0 ↔ held (events 0 bytes) k = true) ∧
      (feed keyboardInit bytes).2 = typed [] (events 0 bytes) :=
  have h : Tracks [] 0 keyboardInit := ⟨fun k => by cases k <;> decide, rfl⟩
  feed_events h bytes

/-- Shift, `a`, shift released, a fake shift, `a`. -/
example : (feed keyboardInit [0x2a, 0x1e, 0xaa, 0xe0, 0x2a, 0x1e]).2 = [65, 97] := by decide

end FrogKernel.Keyboard
