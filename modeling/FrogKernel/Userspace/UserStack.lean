import FrogKernel.Userspace.Loader

/-!
# The initial user stack (`uprocess_load` in `userspace/uprocess.c`, `initrd/libc/crt0.c`)

`uprocess_load` puts `argc`, `argv` and the strings into the page below
`USER_STACK_TOP`, from the top down; `_start` takes them from there.
`StackPage.decodes` says that it gets back what was put in, for every `argv` that fits
into the page.
-/

namespace FrogKernel.Loader

open FrogKernel.Bytes FrogKernel.PageTables FrogKernel.Pmm FrogKernel.Paging FrogKernel.Spaces
  FrogKernel.CStrings FrogKernel.ForeignMap FrogKernel.AddressSpace
open FrogKernel.Kheap (add32 sub32 add32_lt)

/-! ## The two pages -/

section Stack

variable {s₀ s : Machine} {role : Nat → Option Role} {pd : Nat}

theorem stack_user : UserFlags (PAGE_PRESENT ||| PAGE_RW ||| PAGE_USER) := Or.inr (Or.inr rfl)

/-- What a program sees of its stack. -/
def stackView (buf : Mem) (under : Bytes32) : Bytes32 := fun virt =>
  if virt / 4096 = STACK_PAGE / 4096 then some (buf (virt % 4096))
  else if virt / 4096 = (STACK_PAGE - PAGE_SIZE) / 4096 then some 0
  else under virt

/-- **The stack.**  Unless the frames run out, it is made exactly when its page is. -/
theorem loadStack_cases (k : Bytes32) (argv : List Nat) (h : Building s₀ role s pd) :
    (loadStack k s pd argv = .error .noFrame ∧ ¬ Spare 4 s.pmm) ∨
    (∃ e, initialStack k argv = .error e ∧ loadStack k s pd argv = .error e) ∨
    ∃ buf esp s' role', initialStack k argv = .ok (buf, esp) ∧
      loadStack k s pd argv = .ok (esp, s') ∧ Uses 4 s s' ∧ Building s₀ role' s' pd ∧
      Grown s s' pd [STACK_PAGE - PAGE_SIZE, STACK_PAGE] ∧
      ∀ virt < 2 ^ 32, dirIndex virt < 768 →
        view s'.phys pd virt = stackView buf (view s.phys pd) virt := by
  have hv0 : USER_STACK_TOP - PAGE_SIZE * 2 < 0xc0000000 := by decide
  have hv1 : USER_STACK_TOP - PAGE_SIZE < 0xc0000000 := by decide
  rcases h.alloc (.page ((USER_STACK_TOP - PAGE_SIZE * 2) / 4096)) with
    ⟨herr, hshort⟩ | ⟨p0, s1, hcall0, huse1, hfresh0, hphys1, hb1⟩
  · exact Or.inl ⟨by rw [loadStack, herr]; rfl, fun hs => hshort (hs.mono (by decide))⟩
  rcases hb1.alloc (.page ((USER_STACK_TOP - PAGE_SIZE) / 4096)) with
    ⟨herr, hshort⟩ | ⟨p1, s2, hcall1, huse2, hfresh1, hphys2, hb2⟩
  · exact Or.inl ⟨by rw [loadStack, hcall0, ok_bind]; dsimp only; rw [herr]; rfl,
      fun hs => hshort (huse1 1 (hs.mono (by decide)))⟩
  have hmore1 := MoreRoles.update hfresh0 (.page ((USER_STACK_TOP - PAGE_SIZE * 2) / 4096))
  have hmore2 := MoreRoles.update hfresh1 (.page ((USER_STACK_TOP - PAGE_SIZE) / 4096))
  have hrole0 := hmore2 _ _ (Function.update_self p0 _ role)
  rcases hb2.map hrole0 hv0 stack_user with
    ⟨herr, hshort⟩ | ⟨s3, role3, hmap0, huse3, hmore3, hb3, hlook3, hbytes3⟩
  · refine Or.inl ⟨?_, fun hs => hshort ((huse1.trans huse2) 1 (hs.mono (by decide)))⟩
    rw [loadStack, hcall0, ok_bind]
    dsimp only
    rw [hcall1, ok_bind]
    dsimp only
    rw [herr]
    rfl
  have hrole1 := hmore3 _ _ (Function.update_self p1 (some (.page ((USER_STACK_TOP - PAGE_SIZE) /
    4096))) (Function.update role p0 (some (.page ((USER_STACK_TOP - PAGE_SIZE * 2) / 4096)))))
  rcases hb3.map hrole1 hv1 stack_user with
    ⟨herr, hshort⟩ | ⟨s4, role4, hmap1, huse4, hmore4, hb4, hlook4, hbytes4⟩
  · refine Or.inl ⟨?_, fun hs => hshort (((huse1.trans huse2).trans huse3) 1 hs)⟩
    rw [loadStack, hcall0, ok_bind]
    dsimp only
    rw [hcall1, ok_bind]
    dsimp only
    rw [hmap0, ok_bind, herr]
    rfl
  have hrole0' := hmore4 _ _ (hmore3 _ _ hrole0)
  have hrole1' := hmore4 _ _ hrole1
  obtain ⟨s5, hzero0, hpmm5, hb5, hlook5, hbytes5⟩ := hb4.zero hrole0'
  obtain ⟨s6, hzero1, hpmm6, hb6, hlook6, hbytes6⟩ := hb5.zero hrole1'
  have hload : loadStack k s pd argv = (initialStack k argv >>= fun r =>
      copyToPhys (fun a => some (r.1 a)) s6 p1 0 0 PAGE_SIZE >>= fun s => .ok (r.2, s)) := by
    rw [loadStack, hcall0, ok_bind]
    dsimp only
    rw [hcall1, ok_bind]
    dsimp only
    rw [hmap0, ok_bind, hmap1, ok_bind, hzero0, ok_bind, hzero1, ok_bind]
  rw [hload]
  cases hstack : initialStack k argv with
  | error e => exact Or.inr (Or.inl ⟨e, rfl, rfl⟩)
  | ok r =>
    obtain ⟨buf, esp⟩ := r
    obtain ⟨hcopy, -⟩ := hb6.copy hrole1' (fun a => some (buf a)) 0 0 PAGE_SIZE (Nat.zero_le _)
      (by decide)
    obtain ⟨s7, hcopy, hpmm7, hb7, hlook7, hbytes7⟩ := hcopy ⟨fun _ _ => rfl, by decide⟩
    have huse : Uses 4 s s7 := (((huse1.trans huse2).trans huse3).trans huse4).trans
      (Uses.same (hpmm7.trans (hpmm6.trans hpmm5)))
    have hgrown : Grown s s7 pd [STACK_PAGE - PAGE_SIZE, STACK_PAGE] :=
      (((((allocFrame_grown hcall0 hphys1).append (allocFrame_grown hcall1 hphys2)).append
        (hb2.map_grown hv0 hmap0 hlook3)).append (hb3.map_grown hv1 hmap1 hlook4)).append
        (hb4.write_grown hrole0' hpmm5 hlook5 fun x hx hne => by rw [hbytes5 x hx, if_neg hne])).append
        (hb5.write_grown hrole1' hpmm6 hlook6 fun x hx hne => by rw [hbytes6 x hx, if_neg hne])
      |>.append (hb6.write_grown hrole1' hpmm7 hlook7 fun x hx hne => by
        rw [hbytes7 x hx, if_neg]
        have hal := (hb4.frame p1 (by simp [hrole1'])).1
        simp only [frameOf] at hne
        simp only [PAGE_SIZE]
        omega)
    refine Or.inr (Or.inr ⟨buf, esp, s7, role4, rfl, by rw [ok_bind, hcopy, ok_bind], huse, hb7,
      hgrown, ?_⟩)
    obtain ⟨hal0, hlt0⟩ := hb4.frame p0 (by simp [hrole0'])
    obtain ⟨hal1, hlt1⟩ := hb4.frame p1 (by simp [hrole1'])
    have hne : p0 ≠ p1 := by
      rintro rfl
      rw [Function.update_self] at hfresh1
      cases hfresh1
    have hlook : ∀ virt < 2 ^ 32, dirIndex virt < 768 → lookup s7.phys pd virt =
        if virt / 4096 = STACK_PAGE / 4096 then
          pageEntry p1 (PAGE_PRESENT ||| PAGE_RW ||| PAGE_USER)
        else if virt / 4096 = (STACK_PAGE - PAGE_SIZE) / 4096 then
          pageEntry p0 (PAGE_PRESENT ||| PAGE_RW ||| PAGE_USER)
        else lookup s.phys pd virt := by
      intro virt hvirt hdir
      have hpage1 : (USER_STACK_TOP - PAGE_SIZE) / 4096 = STACK_PAGE / 4096 := by decide
      have hpage0 : (USER_STACK_TOP - PAGE_SIZE * 2) / 4096 = (STACK_PAGE - PAGE_SIZE) / 4096 := by
        decide
      rw [hpage1] at hlook4
      rw [hpage0] at hlook3
      rw [hlook7 virt hdir, hlook6 virt hdir, hlook5 virt hdir, hlook4 virt hvirt hdir,
        hlook3 virt hvirt hdir, hphys2, hphys1]
    have hmod : ∀ virt, virt % 4096 < 4096 := fun virt => Nat.mod_lt _ (by decide)
    intro virt hvirt hdir
    have hl := hlook virt hvirt hdir
    have ho := hmod virt
    rw [stackView]
    split
    case isTrue htop =>
      rw [if_pos htop] at hl
      rw [view_pageEntry hlt1 hal1 hl, hbytes7 _ (by rw [frameOf_add hal1 ho]; simp [hrole1'])]
      rw [if_pos (by simp only [PAGE_SIZE]; omega), bytesAt, Nat.zero_add, Nat.add_zero,
        Nat.add_sub_cancel_left, Nat.mod_eq_of_lt (Nat.lt_trans ho (by decide)), Option.getD_some]
    case isFalse htop =>
      rw [if_neg htop] at hl
      split
      case isTrue hlow =>
        rw [if_pos hlow] at hl
        have hrole : role4 (frameOf (p0 + virt % 4096)) ≠ none := by
          rw [frameOf_add hal0 ho]
          simp [hrole0']
        rw [view_pageEntry hlt0 hal0 hl, hbytes7 _ hrole, hbytes6 _ hrole, hbytes5 _ hrole,
          frameOf_add hal0 ho, if_neg (by simp only [PAGE_SIZE]; omega), if_neg hne, if_pos rfl]
      case isFalse hlow =>
        rw [if_neg hlow] at hl
        refine view_congr hl fun hp => ?_
        obtain ⟨-, hold⟩ := h.space.page virt hvirt hdir hp
        have hal := frameOf_aligned (lookup s.phys pd virt)
        generalize frameOf (lookup s.phys pd virt) = f at hold hal
        have hf0 : f ≠ p0 := by
          rintro rfl
          rw [hfresh0] at hold
          cases hold
        have hf1 : f ≠ p1 := by
          rintro rfl
          rw [Function.update_of_ne hf0, hold] at hfresh1
          cases hfresh1
        have hold2 := hmore2 _ _ (hmore1 _ _ hold)
        have hold3 := hmore3 _ _ hold2
        have hold4 := hmore4 _ _ hold3
        have hrole : role4 (frameOf (f + virt % 4096)) ≠ none := by
          rw [frameOf_add hal ho]
          simp [hold4]
        rw [hbytes7 _ hrole, hbytes6 _ hrole, hbytes5 _ hrole, frameOf_add hal ho,
          if_neg (by simp only [PAGE_SIZE]; omega), if_neg hf1, if_neg hf0,
          hbytes4 _ ⟨_, by rw [frameOf_add hal ho]; exact hold3⟩,
          hbytes3 _ ⟨_, by rw [frameOf_add hal ho]; exact hold2⟩, hphys2, hphys1]

end Stack

/-! ## Strings -/

/-- The string `s` and its NUL lie at `a`. -/
def StrAt (k : Bytes32) : Nat → List Char8 → Prop
  | a, [] => k a = some 0
  | a, c :: s => k a = some c ∧ c ≠ 0 ∧ StrAt k (add32 a 1) s

theorem strAt_iff {k : Bytes32} {s : List Char8} {a : Nat} (ha : a < 2 ^ 32) :
    StrAt k a s ↔ (∀ c ∈ s, c ≠ 0) ∧
      ∀ j (hj : j < (s ++ [0]).length), k ((a + j) % 2 ^ 32) = some (s ++ [0])[j] := by
  induction s generalizing a with
  | nil =>
    have hzero : (a + 0) % 2 ^ 32 = a := Nat.mod_eq_of_lt ha
    rw [StrAt]
    constructor
    · intro h
      refine ⟨by simp, fun j hj => ?_⟩
      obtain rfl : j = 0 := by simpa using hj
      rw [hzero]
      exact h
    · rintro ⟨-, h⟩
      have h0 := h 0 (by simp)
      rwa [hzero] at h0
  | cons c s ih =>
    have hzero : (a + 0) % 2 ^ 32 = a := Nat.mod_eq_of_lt ha
    rw [StrAt, ih (add32_lt a 1)]
    constructor
    · rintro ⟨h0, hc, hs, hall⟩
      refine ⟨List.forall_mem_cons.mpr ⟨hc, hs⟩, fun j hj => ?_⟩
      cases j with
      | zero => rw [hzero]; exact h0
      | succ j =>
        rw [← add32_shift]
        exact hall j (by simpa using hj)
    · rintro ⟨hs, hall⟩
      have h0 := hall 0 (by simp)
      rw [hzero] at h0
      refine ⟨h0, hs c (by simp), fun d hd => hs d (by simp [hd]), fun j hj => ?_⟩
      rw [add32_shift]
      exact hall (j + 1) (by simpa using hj)

theorem strlen_strAt {k : Bytes32} {s : List Char8} {a n : Nat} (h : StrAt k a s)
    (hn : s.length < n) : strlen k a n = .ok s.length := by
  induction s generalizing a n with
  | nil =>
    cases n with
    | zero => cases hn
    | succ n =>
      have h0 : k a = some 0 := h
      rw [strlen, h0]
      rfl
  | cons c s ih =>
    cases n with
    | zero => cases hn
    | succ n =>
      obtain ⟨h0, hc, hs⟩ := h
      have hn' : s.length < n := by simpa using hn
      rw [strlen, h0, orFault_some, ok_bind, if_neg hc, ih hs hn', ok_bind]
      rfl

/-- The bytes that `memcpy` takes from a string. -/
theorem StrAt.holds {k : Bytes32} {s : List Char8} {a : Nat} (h : StrAt k a s) (ha : a < 2 ^ 32) :
    Holds (bytesAt k a) 0 (s ++ [0]) := by
  rw [holds_iff]
  intro j hj
  rw [bytesAt, Nat.zero_add, ((strAt_iff ha).mp h).2 j hj, Option.getD_some]

theorem StrAt.ne_zero {k : Bytes32} {s : List Char8} {a : Nat} (h : StrAt k a s) (ha : a < 2 ^ 32) :
    ∀ c ∈ s, c ≠ 0 :=
  ((strAt_iff ha).mp h).1

/-! ## The loops -/

/-- `sub32` without a borrow. -/
theorem sub32_of_le {a b : Nat} (ha : a < 2 ^ 32) (hb : b ≤ a) : sub32 a b = a - b := by
  simp only [sub32]
  omega

/-- The bytes of the strings with their NULs. -/
def stringBytes (strs : List (List Char8)) : Nat := (strs.map fun s => s.length + 1).sum

/-- The string lies in the buffer, where `vaddr` points into the stack page. -/
def InBuf (buf : Mem) (lo hi : Nat) (vaddr : Nat) (s : List Char8) : Prop :=
  ∃ offset, vaddr = STACK_PAGE + offset ∧ lo ≤ offset ∧ offset + (s.length + 1) ≤ hi ∧
    Holds buf offset (s ++ [0])

theorem InBuf.keep {buf buf' : Mem} {lo hi lo' hi' vaddr : Nat} {s : List Char8}
    (h : InBuf buf lo hi vaddr s) (hlo : lo' ≤ lo) (hhi : hi ≤ hi')
    (hsame : ∀ x, lo ≤ x → x < hi → buf' x = buf x) : InBuf buf' lo' hi' vaddr s := by
  obtain ⟨offset, hv, h1, h2, hholds⟩ := h
  refine ⟨offset, hv, by omega, by omega, holds_congr hholds fun x hx1 hx2 => ?_⟩
  simp only [List.length_append, List.length_cons, List.length_nil] at hx2
  exact hsame x (by omega) (by omega)

/-- The pointers of `argv`, and the strings they point to. -/
def Args (k : Bytes32) (argv : List Nat) (strs : List (List Char8)) : Prop :=
  List.Forall₂ (fun arg s => arg < 2 ^ 32 ∧ StrAt k arg s) argv strs

theorem pushString_ok {k : Bytes32} {b : PageBuf} {arg : Nat} {s : List Char8} (harg : arg < 2 ^ 32)
    (h : StrAt k arg s) (hfits : s.length + 1 ≤ b.offset) (hb : b.offset ≤ PAGE_SIZE) :
    ∃ buf, pushString k b arg = .ok (STACK_PAGE + (b.offset - (s.length + 1)),
        ⟨buf, b.offset - (s.length + 1)⟩) ∧
      Holds buf (b.offset - (s.length + 1)) (s ++ [0]) ∧
      ∀ x, x < b.offset - (s.length + 1) ∨ b.offset ≤ x → buf x = b.buf x := by
  simp only [PAGE_SIZE] at hb
  have hlen : strlen k arg ROUNDS = .ok s.length :=
    strlen_strAt h (by simp only [ROUNDS]; omega)
  have hsub := sub32_of_le (by omega) hfits
  refine ⟨copy b.buf (b.offset - (s.length + 1)) (bytesAt k arg) 0 (s.length + 1), ?_, ?_, ?_⟩
  · rw [pushString, hlen, ok_bind]
    dsimp only
    rw [hsub, if_pos (by simp only [PAGE_SIZE]; omega)]
  · have hcopy := copy_holds b.buf (d := b.offset - (s.length + 1)) (h.holds harg)
    rwa [List.length_append] at hcopy
  · intro x hx
    rw [copy_apply, if_neg (by omega)]

theorem pushStrings_ok {k : Bytes32} {b : PageBuf} {argv : List Nat} {strs : List (List Char8)}
    (h : Args k argv strs) (hfits : stringBytes strs ≤ b.offset) (hb : b.offset ≤ PAGE_SIZE) :
    ∃ vaddrs buf, pushStrings k b argv = .ok (vaddrs, ⟨buf, b.offset - stringBytes strs⟩) ∧
      List.Forall₂ (InBuf buf (b.offset - stringBytes strs) b.offset) vaddrs strs ∧
      ∀ x, x < b.offset - stringBytes strs ∨ b.offset ≤ x → buf x = b.buf x := by
  induction h with
  | nil => exact ⟨[], b.buf, rfl, .nil, fun _ _ => rfl⟩
  | @cons arg s argv strs harg _ ih =>
    have hsum : stringBytes (s :: strs) = s.length + 1 + stringBytes strs := by
      rw [stringBytes, stringBytes, List.map_cons, List.sum_cons]
    rw [hsum] at hfits ⊢
    obtain ⟨vaddrs, buf, hpush, hstrs, hsame⟩ := ih (by omega)
    obtain ⟨buf', hpush', hholds, hsame'⟩ := pushString_ok (b := ⟨buf, b.offset - stringBytes strs⟩)
      harg.1 harg.2 (by dsimp only; omega) (by dsimp only; omega)
    dsimp only at hpush' hholds hsame'
    have hoffset : b.offset - stringBytes strs - (s.length + 1) =
        b.offset - (s.length + 1 + stringBytes strs) := by omega
    rw [hoffset] at hpush' hholds hsame'
    refine ⟨_ :: vaddrs, buf', ?_, .cons ⟨_, rfl, Nat.le_refl _, by omega, hholds⟩ ?_, fun x hx => ?_⟩
    · rw [pushStrings, hpush, ok_bind]
      dsimp only
      rw [hpush', ok_bind]
    · refine hstrs.imp fun vaddr t hin => hin.keep (by omega) (Nat.le_refl _) fun x hx _ => ?_
      exact hsame' x (by omega)
    · rw [hsame' x (by omega), hsame x (by omega)]

theorem pushWord_ok {b : PageBuf} {v : Nat} (hfits : 4 ≤ b.offset) (hb : b.offset ≤ PAGE_SIZE) :
    pushWord b v = .ok ⟨write32 b.buf (b.offset - 4) v, b.offset - 4⟩ := by
  simp only [PAGE_SIZE] at hb
  have hsub := sub32_of_le (by omega) hfits
  rw [pushWord, hsub, if_pos (by simp only [PAGE_SIZE]; omega)]

theorem pushWords_ok {b : PageBuf} (vs : List Nat) (hfits : 4 * vs.length ≤ b.offset)
    (hb : b.offset ≤ PAGE_SIZE) (hvs : ∀ v ∈ vs, v < 2 ^ 32) :
    ∃ buf, pushWords b vs = .ok ⟨buf, b.offset - 4 * vs.length⟩ ∧
      (∀ i (hi : i < vs.length), read32 buf (b.offset - 4 * vs.length + 4 * i) = vs[i]) ∧
      ∀ x, b.offset ≤ x → buf x = b.buf x := by
  induction vs with
  | nil => exact ⟨b.buf, rfl, fun i hi => absurd hi (Nat.not_lt_zero i), fun _ _ => rfl⟩
  | cons v vs ih =>
    rw [List.length_cons] at hfits
    obtain ⟨buf, hpush, hwords, hsame⟩ := ih (by omega) fun w hw => hvs w (List.mem_cons_of_mem _ hw)
    have hpush' := pushWord_ok (b := ⟨buf, b.offset - 4 * vs.length⟩) (v := v)
      (by dsimp only; omega) (by dsimp only; omega)
    dsimp only at hpush'
    have hoffset : b.offset - 4 * vs.length - 4 = b.offset - 4 * (vs.length + 1) := by omega
    rw [hoffset] at hpush'
    refine ⟨write32 buf (b.offset - 4 * (vs.length + 1)) v, ?_, fun i hi => ?_, fun x hx => ?_⟩
    · rw [pushWords, hpush, ok_bind]
      exact hpush'
    · cases i with
      | zero =>
        rw [List.length_cons, Nat.mul_zero, Nat.add_zero, List.getElem_cons_zero]
        exact readN_writeN_self buf (hvs v (List.mem_cons_self ..))
      | succ i =>
        have hi' : i < vs.length := by simpa using hi
        have haddr : b.offset - 4 * (vs.length + 1) + 4 * (i + 1) =
            b.offset - 4 * vs.length + 4 * i := by omega
        rw [List.length_cons, haddr, List.getElem_cons_succ, ← hwords i hi']
        exact readN_writeN_apart buf v (by omega)
    · rw [write32, writeN_outside _ (by omega), hsame x hx]

/-! ## The page -/

/-- Where `buf_offset` is after the strings and `&= ~3`. -/
def wordsEnd (strs : List (List Char8)) : Nat := (PAGE_SIZE - stringBytes strs) / 4 * 4

/-- `argc`, `argv`, the strings and the padding between them fit into the page. -/
def Fits (strs : List (List Char8)) : Prop :=
  stringBytes strs ≤ PAGE_SIZE ∧ 4 * (strs.length + 3) ≤ wordsEnd strs

instance (strs : List (List Char8)) : Decidable (Fits strs) := inferInstanceAs (Decidable (_ ∧ _))

theorem and_align {x : Nat} (hx : x < 2 ^ 32) : x &&& 0xfffffffc = x / 4 * 4 :=
  and_high (k := 2) (by decide) hx

/-- The page that `uprocess_load` makes. -/
structure StackPage (buf : Mem) (esp : Nat) (strs : List (List Char8)) : Prop where
  esp_eq : esp = STACK_PAGE + (wordsEnd strs - 4 * (strs.length + 3))
  argc : read32 buf (wordsEnd strs - 4 * (strs.length + 3)) = strs.length
  argv : read32 buf (wordsEnd strs - 4 * (strs.length + 3) + 4) =
    STACK_PAGE + (wordsEnd strs - 4 * (strs.length + 1))
  args : ∀ i (hi : i < strs.length),
    InBuf buf 0 PAGE_SIZE (read32 buf (wordsEnd strs - 4 * (strs.length + 1) + 4 * i)) strs[i]
  null : read32 buf (wordsEnd strs - 4) = 0

theorem inBuf_lt {buf : Mem} {lo hi vaddr : Nat} {s : List Char8} (h : InBuf buf lo hi vaddr s)
    (hhi : hi ≤ PAGE_SIZE) : vaddr < 2 ^ 32 := by
  obtain ⟨offset, rfl, -, h2, -⟩ := h
  simp only [PAGE_SIZE] at hhi
  simp only [STACK_PAGE, USER_STACK_TOP, PAGE_SIZE]
  omega

theorem initialStack_ok {k : Bytes32} {argv : List Nat} {strs : List (List Char8)}
    (h : Args k argv strs) (hfits : Fits strs) :
    ∃ buf esp, initialStack k argv = .ok (buf, esp) ∧ StackPage buf esp strs := by
  obtain ⟨hbytes, hwords⟩ := hfits
  obtain ⟨vaddrs, buf, hpush, hstrs, -⟩ := pushStrings_ok (b := ⟨fun _ => 0, PAGE_SIZE⟩) h hbytes
    (Nat.le_refl _)
  dsimp only at hpush hstrs
  have hlen : vaddrs.length = strs.length := hstrs.length_eq
  have hargc : argv.length = strs.length := h.length_eq
  have hend : wordsEnd strs ≤ PAGE_SIZE - stringBytes strs := Nat.div_mul_le_self _ _
  have hpage : PAGE_SIZE = 4096 := rfl
  have halign : (PAGE_SIZE - stringBytes strs) &&& 0xfffffffc = wordsEnd strs :=
    and_align (by omega)
  have hin : ∀ i (hi : i < strs.length), InBuf buf (PAGE_SIZE - stringBytes strs) PAGE_SIZE
      (vaddrs.get ⟨i, hlen ▸ hi⟩) strs[i] := fun i hi => hstrs.get (hlen ▸ hi) hi
  have hnull := pushWord_ok (b := ⟨buf, wordsEnd strs⟩) (v := 0) (by dsimp only; omega)
    (by dsimp only; omega)
  dsimp only at hnull
  generalize hbuf1 : write32 buf (wordsEnd strs - 4) 0 = buf1 at hnull
  have hnull1 : read32 buf1 (wordsEnd strs - 4) = 0 := by
    rw [← hbuf1]
    exact readN_writeN_self buf (by decide)
  have hsame1 : ∀ x, wordsEnd strs ≤ x → buf1 x = buf x := by
    intro x hx
    rw [← hbuf1, write32, writeN_outside _ (by omega)]
  obtain ⟨buf2, hpush2, hwords2, hsame2⟩ := pushWords_ok (b := ⟨buf1, wordsEnd strs - 4⟩) vaddrs
    (by dsimp only; omega) (by dsimp only; omega) fun v hv => by
      obtain ⟨i, hi, rfl⟩ := List.getElem_of_mem hv
      exact inBuf_lt (hin i (hlen ▸ hi)) (Nat.le_refl _)
  dsimp only at hpush2 hwords2 hsame2
  have hargs : wordsEnd strs - 4 - 4 * vaddrs.length = wordsEnd strs - 4 * (strs.length + 1) := by
    omega
  rw [hargs] at hpush2 hwords2
  have hpush3 := pushWord_ok (b := ⟨buf2, wordsEnd strs - 4 * (strs.length + 1)⟩)
    (v := STACK_PAGE + (wordsEnd strs - 4 * (strs.length + 1))) (by dsimp only; omega)
    (by dsimp only; omega)
  dsimp only at hpush3
  have hargv : wordsEnd strs - 4 * (strs.length + 1) - 4 =
      wordsEnd strs - 4 * (strs.length + 3) + 4 := by omega
  rw [hargv] at hpush3
  generalize hbuf3 : write32 buf2 (wordsEnd strs - 4 * (strs.length + 3) + 4)
    (STACK_PAGE + (wordsEnd strs - 4 * (strs.length + 1))) = buf3 at hpush3
  have hpush4 := pushWord_ok (b := ⟨buf3, wordsEnd strs - 4 * (strs.length + 3) + 4⟩)
    (v := argv.length) (by dsimp only; omega) (by dsimp only; omega)
  dsimp only at hpush4
  rw [Nat.add_sub_cancel, hargc] at hpush4
  generalize hbuf4 : write32 buf3 (wordsEnd strs - 4 * (strs.length + 3)) strs.length = buf4
    at hpush4
  have hsame4 : ∀ x, wordsEnd strs - 4 * (strs.length + 1) ≤ x → buf4 x = buf2 x := by
    intro x hx
    rw [← hbuf4, write32, writeN_outside _ (by omega), ← hbuf3, write32,
      writeN_outside _ (by omega)]
  refine ⟨buf4, STACK_PAGE + (wordsEnd strs - 4 * (strs.length + 3)), ?_, rfl, ?_, ?_, fun i hi => ?_,
    ?_⟩
  · rw [initialStack, hpush, ok_bind]
    dsimp only
    rw [halign, hnull, ok_bind, hpush2, ok_bind, hpush3, ok_bind, hargc, hpush4, ok_bind]
  · rw [← hbuf4]
    exact readN_writeN_self buf3 (by simp only [PAGE_SIZE] at hend; omega)
  · rw [← hbuf4]
    have hold : read32 buf3 (wordsEnd strs - 4 * (strs.length + 3) + 4) =
        STACK_PAGE + (wordsEnd strs - 4 * (strs.length + 1)) := by
      rw [← hbuf3]
      refine readN_writeN_self buf2 ?_
      simp only [STACK_PAGE, USER_STACK_TOP, PAGE_SIZE] at hend ⊢
      omega
    rw [← hold]
    exact readN_writeN_apart buf3 _ (by omega)
  · have hword : read32 buf4 (wordsEnd strs - 4 * (strs.length + 1) + 4 * i) =
        vaddrs.get ⟨i, hlen ▸ hi⟩ :=
      (readN_congr fun x h1 _ => hsame4 x (by omega)).trans (hwords2 i (hlen ▸ hi))
    rw [hword]
    refine (hin i hi).keep (Nat.zero_le _) (Nat.le_refl _) fun x hx _ => ?_
    rw [hsame4 x (by omega), hsame2 x (by omega), hsame1 x (by omega)]
  · rw [← hnull1]
    refine readN_congr fun x h1 _ => ?_
    rw [hsame4 x (by omega), hsame2 x (by omega)]

/-! ## Only what fits -/

theorem strAt_of_strlen {k : Bytes32} {a n len : Nat} (h : strlen k a n = .ok len) :
    ∃ s, StrAt k a s ∧ s.length = len := by
  induction n generalizing a len with
  | zero => cases h
  | succ n ih =>
    rw [strlen] at h
    obtain ⟨c, hc, h⟩ := bind_ok h
    have hbyte : k a = some c := orFault_ok hc
    split at h
    case isTrue h0 =>
      obtain rfl := Except.ok.inj h
      rw [h0] at hbyte
      exact ⟨[], hbyte, rfl⟩
    case isFalse h0 =>
      obtain ⟨m, hm, h⟩ := bind_ok h
      obtain rfl := Except.ok.inj h
      obtain ⟨s, hs, rfl⟩ := ih hm
      exact ⟨c :: s, ⟨hbyte, h0, hs⟩, rfl⟩

/-- A store that stays in the page has not wrapped around. -/
theorem sub32_fits {offset n : Nat} (hb : offset ≤ PAGE_SIZE) (h : sub32 offset n + n ≤ PAGE_SIZE) :
    n ≤ offset ∧ sub32 offset n = offset - n := by
  simp only [PAGE_SIZE, sub32] at *
  omega

theorem pushString_fits {k : Bytes32} {b b' : PageBuf} {arg vaddr : Nat} (hb : b.offset ≤ PAGE_SIZE)
    (h : pushString k b arg = .ok (vaddr, b')) :
    ∃ s, StrAt k arg s ∧ s.length + 1 ≤ b.offset ∧ b'.offset = b.offset - (s.length + 1) := by
  obtain ⟨len, hlen, h⟩ := bind_ok h
  obtain ⟨s, hs, rfl⟩ := strAt_of_strlen hlen
  dsimp only at h
  split at h
  case isTrue hfits =>
    obtain ⟨-, rfl⟩ := Prod.mk.inj (Except.ok.inj h)
    obtain ⟨h1, h2⟩ := sub32_fits hb hfits
    exact ⟨s, hs, h1, h2⟩
  case isFalse => cases h

theorem pushStrings_fits {k : Bytes32} {b b' : PageBuf} {argv vaddrs : List Nat}
    (hargv : ∀ a ∈ argv, a < 2 ^ 32) (hb : b.offset ≤ PAGE_SIZE)
    (h : pushStrings k b argv = .ok (vaddrs, b')) :
    ∃ strs, Args k argv strs ∧ vaddrs.length = argv.length ∧ stringBytes strs ≤ b.offset ∧
      b'.offset = b.offset - stringBytes strs := by
  induction argv generalizing vaddrs b' with
  | nil =>
    obtain ⟨rfl, rfl⟩ := Prod.mk.inj (Except.ok.inj h)
    exact ⟨[], .nil, rfl, Nat.zero_le _, rfl⟩
  | cons arg argv ih =>
    rw [List.forall_mem_cons] at hargv
    obtain ⟨⟨vaddrs1, b1⟩, hpush, h⟩ := bind_ok h
    obtain ⟨⟨vaddr, b2⟩, hpush2, h⟩ := bind_ok h
    obtain ⟨rfl, rfl⟩ := Prod.mk.inj (Except.ok.inj h)
    obtain ⟨strs, hargs, hlen, hle, hoffset⟩ := ih hargv.2 hpush
    obtain ⟨s, hs, hle2, hoffset2⟩ := pushString_fits (by omega) hpush2
    have hsum : stringBytes (s :: strs) = s.length + 1 + stringBytes strs := by
      rw [stringBytes, stringBytes, List.map_cons, List.sum_cons]
    exact ⟨s :: strs, .cons ⟨hargv.1, hs⟩ hargs, by simp [hlen], by omega, by omega⟩

theorem pushWord_fits {b b' : PageBuf} {v : Nat} (hb : b.offset ≤ PAGE_SIZE)
    (h : pushWord b v = .ok b') : 4 ≤ b.offset ∧ b'.offset = b.offset - 4 := by
  rw [pushWord] at h
  split at h
  case isTrue hfits =>
    obtain rfl := Except.ok.inj h
    exact sub32_fits hb hfits
  case isFalse => cases h

theorem pushWords_fits {b b' : PageBuf} {vs : List Nat} (hb : b.offset ≤ PAGE_SIZE)
    (h : pushWords b vs = .ok b') : 4 * vs.length ≤ b.offset ∧ b'.offset = b.offset - 4 * vs.length := by
  induction vs generalizing b' with
  | nil =>
    obtain rfl := Except.ok.inj h
    exact ⟨Nat.zero_le _, rfl⟩
  | cons v vs ih =>
    obtain ⟨b1, hpush, h⟩ := bind_ok h
    obtain ⟨hle, hoffset⟩ := ih hpush
    obtain ⟨hle2, hoffset2⟩ := pushWord_fits (by omega) h
    rw [List.length_cons]
    exact ⟨by omega, by omega⟩

/-- **The page of the stack** can be made exactly when its strings end and fit. -/
theorem initialStack_ok_iff {k : Bytes32} {argv : List Nat} (hargv : ∀ a ∈ argv, a < 2 ^ 32) :
    (∃ r, initialStack k argv = .ok r) ↔ ∃ strs, Args k argv strs ∧ Fits strs := by
  constructor
  · rintro ⟨r, h⟩
    obtain ⟨⟨vaddrs, b1⟩, hpush1, h⟩ := bind_ok h
    obtain ⟨b2, hpush2, h⟩ := bind_ok h
    obtain ⟨b3, hpush3, h⟩ := bind_ok h
    obtain ⟨b4, hpush4, h⟩ := bind_ok h
    obtain ⟨b5, hpush5, -⟩ := bind_ok h
    obtain ⟨strs, hargs, hlen, hle, hoffset⟩ := pushStrings_fits hargv (Nat.le_refl _) hpush1
    dsimp only at hle hoffset hpush2 hpush3 hpush4
    have hpage : PAGE_SIZE = 4096 := rfl
    have halign : b1.offset &&& 0xfffffffc = wordsEnd strs := by
      rw [hoffset]
      exact and_align (by omega)
    have hend : wordsEnd strs ≤ PAGE_SIZE := Nat.le_trans (Nat.div_mul_le_self _ _) (Nat.sub_le _ _)
    rw [halign] at hpush2
    obtain ⟨hle2, hoffset2⟩ := pushWord_fits (b := ⟨_, _⟩) hend hpush2
    dsimp only at hle2 hoffset2
    obtain ⟨hle3, hoffset3⟩ := pushWords_fits (by omega) hpush3
    obtain ⟨hle4, hoffset4⟩ := pushWord_fits (by omega) hpush4
    obtain ⟨hle5, -⟩ := pushWord_fits (by omega) hpush5
    have hcount : vaddrs.length = strs.length := hlen.trans hargs.length_eq
    have hwords : wordsEnd strs = (PAGE_SIZE - stringBytes strs) / 4 * 4 := rfl
    exact ⟨strs, hargs, hle, by omega⟩
  · rintro ⟨strs, hargs, hfits⟩
    obtain ⟨buf, esp, hstack, -⟩ := initialStack_ok hargs hfits
    exact ⟨_, hstack⟩

/-! ## `_start` -/

/-- `mov (%esp), %esi; mov 4(%esp), %edi`: what `_start_c` is called with. -/
def startArgs (u : Bytes32) (esp : Nat) : Except Halt (Nat × Nat) := do
  let argc ← load u esp 4
  let argv ← load u (add32 esp 4) 4
  .ok (argc, argv)

/-- `argv[i]` -/
def argAt (u : Bytes32) (argv i : Nat) : Except Halt Nat := load u (add32 argv (4 * i)) 4

/-- `n` bytes of the page below `USER_STACK_TOP`. -/
def InStackPage (a n : Nat) : Prop := STACK_PAGE ≤ a ∧ a + n ≤ USER_STACK_TOP

/-- A program that starts with `esp` finds the strings. -/
structure Decodes (u : Bytes32) (esp : Nat) (strs : List (List Char8)) (argv : Nat) : Prop where
  start : startArgs u esp = .ok (strs.length, argv)
  args : ∀ i (hi : i < strs.length), ∃ p, argAt u argv i = .ok p ∧ StrAt u p strs[i] ∧
    InStackPage p (strs[i].length + 1)
  null : argAt u argv strs.length = .ok 0
  espAligned : esp % 4 = 0
  argvAligned : argv % 4 = 0
  espInside : InStackPage esp 8
  argvInside : InStackPage argv (4 * (strs.length + 1))

section Decode

variable {u : Bytes32} {buf : Mem}

/-- Words of the stack page. -/
theorem load_stack (hu : ∀ o < 4096, u (STACK_PAGE + o) = some (buf o)) {o : Nat}
    (ho : o + 4 ≤ 4096) : load u (STACK_PAGE + o) 4 = .ok (read32 buf o) := by
  have haddr : ∀ j < 4, u ((STACK_PAGE + o + j) % 2 ^ 32) = some (buf (o + j)) := by
    intro j hj
    have hlt : STACK_PAGE + o + j < 2 ^ 32 := by
      simp only [STACK_PAGE, USER_STACK_TOP, PAGE_SIZE]
      omega
    rw [Nat.mod_eq_of_lt hlt, Nat.add_assoc]
    exact hu (o + j) (by omega)
  have hread : Readable u (STACK_PAGE + o) 4 := fun j hj => by rw [haddr j hj]; rfl
  have hbyte : ∀ j < 4, bytesAt u (STACK_PAGE + o) j = buf (o + j) := fun j hj => by
    rw [bytesAt, haddr j hj]
    rfl
  rw [load, if_pos hread]
  simp only [read32, readN, Nat.zero_add, Nat.add_assoc]
  rw [hbyte 0 (by decide), hbyte 1 (by decide), hbyte (1 + 1) (by decide),
    hbyte (1 + (1 + 1)) (by decide)]
  rfl

theorem strAt_stack (hu : ∀ o < 4096, u (STACK_PAGE + o) = some (buf o)) {p : Nat} {s : List Char8}
    (h : InBuf buf 0 PAGE_SIZE p s) (hs : ∀ c ∈ s, c ≠ 0) :
    StrAt u p s ∧ InStackPage p (s.length + 1) := by
  obtain ⟨o, rfl, -, ho, hholds⟩ := h
  simp only [PAGE_SIZE] at ho
  have hlt : STACK_PAGE + o < 2 ^ 32 := by
    simp only [STACK_PAGE, USER_STACK_TOP, PAGE_SIZE]
    omega
  refine ⟨(strAt_iff hlt).mpr ⟨hs, fun j hj => ?_⟩, Nat.le_add_right _ _, ?_⟩
  · have hj' : j < s.length + 1 := by simpa using hj
    have hmod : (STACK_PAGE + o + j) % 2 ^ 32 = STACK_PAGE + (o + j) := by
      simp only [STACK_PAGE, USER_STACK_TOP, PAGE_SIZE]
      omega
    rw [hmod, hu (o + j) (by omega), holds_iff.mp hholds j hj]
  · simp only [STACK_PAGE, USER_STACK_TOP, PAGE_SIZE]
    omega

theorem StackPage.decodes (hu : ∀ o < 4096, u (STACK_PAGE + o) = some (buf o)) {esp : Nat}
    {strs : List (List Char8)} (h : StackPage buf esp strs) (hfits : Fits strs)
    (hne : ∀ s ∈ strs, ∀ c ∈ s, c ≠ 0) :
    Decodes u esp strs (STACK_PAGE + (wordsEnd strs - 4 * (strs.length + 1))) := by
  have hwords := hfits.2
  have hend : wordsEnd strs ≤ 4096 :=
    Nat.le_trans (Nat.div_mul_le_self _ _) (Nat.sub_le _ _)
  have halign : wordsEnd strs % 4 = 0 := Nat.mul_mod_left _ _
  have hadd : ∀ o n, o + n ≤ 4096 → add32 (STACK_PAGE + o) n = STACK_PAGE + (o + n) := by
    intro o n hlt
    simp only [add32, STACK_PAGE, USER_STACK_TOP, PAGE_SIZE]
    omega
  have harg : ∀ i ≤ strs.length, argAt u (STACK_PAGE + (wordsEnd strs - 4 * (strs.length + 1))) i =
      .ok (read32 buf (wordsEnd strs - 4 * (strs.length + 1) + 4 * i)) := by
    intro i hi
    rw [argAt, hadd _ _ (by omega), load_stack hu (by omega)]
  refine ⟨?_, fun i hi => ?_, ?_, ?_, ?_, ?_, ?_⟩
  · rw [startArgs, h.esp_eq, load_stack hu (by omega), h.argc, ok_bind, hadd _ _ (by omega),
      load_stack hu (by omega), h.argv, ok_bind]
  · exact ⟨_, harg i (Nat.le_of_lt hi),
      strAt_stack hu (h.args i hi) (hne _ (List.getElem_mem hi))⟩
  · have hlast : wordsEnd strs - 4 * (strs.length + 1) + 4 * strs.length = wordsEnd strs - 4 := by
      omega
    rw [harg _ (Nat.le_refl _), hlast, h.null]
  · rw [h.esp_eq]
    simp only [STACK_PAGE, USER_STACK_TOP, PAGE_SIZE]
    omega
  · simp only [STACK_PAGE, USER_STACK_TOP, PAGE_SIZE]
    omega
  · rw [h.esp_eq]
    simp only [InStackPage, STACK_PAGE, USER_STACK_TOP, PAGE_SIZE]
    omega
  · simp only [InStackPage, STACK_PAGE, USER_STACK_TOP, PAGE_SIZE]
    omega

end Decode

end FrogKernel.Loader
