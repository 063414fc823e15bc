import FrogKernel.Memory.KernelAreas
import FrogKernel.Userspace.UserStack

/-!
# The memory of a new process (`userspace/uprocess.c`)

`newProcess` is `uprocess_create_pagedir` followed by `uprocess_load`, as both of
their callers have them.  `newProcess_cases` says when it returns and what the
process then sees: `processView`.

Main result: `newProcess_decodes`, for the arguments of the process.
-/

namespace FrogKernel.Loader

open FrogKernel.Bytes FrogKernel.PageTables FrogKernel.Pmm FrogKernel.Paging FrogKernel.Spaces
  FrogKernel.CStrings FrogKernel.ForeignMap FrogKernel.AddressSpace
open FrogKernel.Kheap (add32)

def newProcess (k : Bytes32) (s : Machine) (data : Nat) (argv : List Nat) :
    Except Halt (Nat × Loaded × Machine) := do
  let (pdPhys, s) ← uprocessCreatePagedir s
  let (l, s) ← uprocessLoad k s pdPhys data argv
  .ok (pdPhys, l, s)

/-- The file passes every check of the loader, and what it refers to can be read. -/
def Loadable (k : Bytes32) (data : Nat) : Prop :=
  ∃ e, readEhdr k data = .ok e ∧ ∀ i < e.phnum, HeaderLoads k data e i

/-- What a process sees: its stack over its segments. -/
def processView (k : Bytes32) (data : Nat) (e : Ehdr) (buf : Mem) : Bytes32 :=
  stackView buf (imageView k data (fun _ => none) (segments k data e))

/-- The frames that a process takes at most. -/
def processFrames (k : Bytes32) (data : Nat) (e : Ehdr) : Nat :=
  1 + segmentFrames (segments k data e) + 4

/-- What holds of a process that was made. -/
structure Made (k : Bytes32) (s : Machine) (data : Nat) (argv : List Nat) (pd : Nat) (l : Loaded)
    (s' : Machine) (e : Ehdr) (buf : Mem) : Prop where
  header : readEhdr k data = .ok e
  headers : ∀ i < e.phnum, HeaderLoads k data e i
  stack : initialStack k argv = .ok (buf, l.stackStart)
  building : ∃ role, Building s role s' pd
  seen : ∀ virt < 2 ^ 32, dirIndex virt < 768 →
    userView s'.phys pd virt = processView k data e buf virt

/-- **A new process.**  Unless the frames run out, it is made exactly when the file
can be loaded and its arguments fit into a page. -/
theorem newProcess_cases (k : Bytes32) {s : Machine} (data : Nat) (argv : List Nat) (h : Ready s) :
    (newProcess k s data argv = .error .noFrame ∧
      ∀ e, readEhdr k data = .ok e → ¬ Spare (processFrames k data e) s.pmm) ∨
    (¬ (Loadable k data ∧ ∃ r, initialStack k argv = .ok r) ∧
      ∃ halt, newProcess k s data argv = .error halt) ∨
    ∃ pd l s' e buf, newProcess k s data argv = .ok (pd, l, s') ∧
      Uses (processFrames k data e) s s' ∧ Made k s data argv pd l s' e buf := by
  rcases h.create with ⟨herr, hshort⟩ | ⟨pd, s1, hcreate, huse1, hb1, hempty⟩
  · refine Or.inl ⟨by rw [newProcess, herr]; rfl, fun e _ hs => hshort (hs.mono ?_)⟩
    simp only [processFrames]
    omega
  have hnew : newProcess k s data argv =
      (uprocessLoad k s1 pd data argv >>= fun r => .ok (pd, r.1, r.2)) := by
    rw [newProcess, hcreate, ok_bind]
  rw [hnew, uprocessLoad]
  cases hehdr : readEhdr k data with
  | error halt =>
    refine Or.inr (Or.inl ⟨?_, halt, rfl⟩)
    rintro ⟨⟨e, he, -⟩, -⟩
    rw [hehdr] at he
    cases he
  | ok e =>
    rw [ok_bind]
    rcases loadSegments_cases k data e hb1 with
      ⟨herr, hshort⟩ | ⟨hbad, halt, herr, -⟩ | ⟨hgood, s2, role2, hok, huse2, hb2, -, hview2⟩
    · refine Or.inl ⟨by rw [herr]; rfl, fun e' he' hs => ?_⟩
      obtain rfl := Except.ok.inj he'
      refine hshort (huse1 _ (hs.mono ?_))
      simp only [processFrames]
      omega
    · refine Or.inr (Or.inl ⟨?_, halt, by rw [herr]; rfl⟩)
      rintro ⟨⟨e', he', hall⟩, -⟩
      rw [hehdr] at he'
      obtain rfl := Except.ok.inj he'
      exact hbad hall
    · rw [hok, ok_bind]
      dsimp only
      rcases loadStack_cases k argv hb2 with
        ⟨herr, hshort⟩ | ⟨halt, hstack, herr⟩ | ⟨buf, esp, s3, role3, hstack, hok3, huse3, hb3, -, hview3⟩
      · refine Or.inl ⟨by rw [herr]; rfl, fun e' he' hs => ?_⟩
        obtain rfl := Except.ok.inj he'
        exact hshort ((huse1.trans huse2) _ (hs.mono (by simp only [processFrames]; omega)))
      · refine Or.inr (Or.inl ⟨?_, halt, by rw [herr]; rfl⟩)
        rintro ⟨-, r, hr⟩
        rw [hstack] at hr
        cases hr
      · refine Or.inr (Or.inr ⟨pd, _, s3, e, buf, by rw [hok3]; rfl, (huse1.trans huse2).trans huse3,
          hehdr, hgood, hstack, ⟨role3, hb3⟩, fun virt hvirt hdir => ?_⟩)
        rw [hb3.space.userView hvirt hdir, hview3 virt hvirt hdir, processView, stackView, stackView]
        split
        · rfl
        · split
          · rfl
          · rw [hview2 virt hvirt hdir]
            exact imageView_congr k data _ (view_none (hempty virt hdir))

theorem Made.of_ok {k : Bytes32} {s s' : Machine} {data pd : Nat} {argv : List Nat} {l : Loaded}
    (h : Ready s) (hok : newProcess k s data argv = .ok (pd, l, s')) :
    ∃ e buf, Uses (processFrames k data e) s s' ∧ Made k s data argv pd l s' e buf := by
  rcases newProcess_cases k data argv h with
    ⟨herr, -⟩ | ⟨-, halt, herr⟩ | ⟨pd', l', t, e, buf, hok', huses, hmade⟩
  · rw [hok] at herr
    cases herr
  · rw [hok] at herr
    cases herr
  · rw [hok] at hok'
    obtain ⟨rfl, rfl, rfl⟩ := by simpa using hok'
    exact ⟨e, buf, huses, hmade⟩

/-- With enough frames, a file that can be loaded is made into a process. -/
theorem newProcess_ok {k : Bytes32} {s : Machine} {data : Nat} {argv : List Nat} {e : Ehdr}
    (h : Ready s) (hehdr : readEhdr k data = .ok e) (hheaders : ∀ i < e.phnum, HeaderLoads k data e i)
    (hstack : ∃ r, initialStack k argv = .ok r) (hspare : Spare (processFrames k data e) s.pmm) :
    ∃ pd l s', newProcess k s data argv = .ok (pd, l, s') := by
  rcases newProcess_cases k data argv h with
    ⟨-, hshort⟩ | ⟨hbad, -⟩ | ⟨pd, l, s', -, -, hok, -, -⟩
  · exact absurd hspare (hshort e hehdr)
  · exact absurd ⟨⟨e, hehdr, hheaders⟩, hstack⟩ hbad
  · exact ⟨pd, l, s', hok⟩

/-! ## A file in the kernel heap -/

theorem bootMachine_ready : Ready KernelAreas.bootMachine where
  recursive := KernelAreas.bootMachine_tables.recursive
  used := by decide +kernel
  closed := by decide +kernel

/-- A page of the kernel heap with the bytes of a file. -/
def fileMemory (file : List Char8) : Bytes32 := fun a =>
  if 0xd0000000 ≤ a ∧ a < 0xd0001000 then some (memOf 0xd0000000 file a) else none

/-- An `ET_EXEC` file without program headers, and the string `sh` at byte 64. -/
def emptyFile : List Char8 :=
  [0x7f, 0x45, 0x4c, 0x46] ++ List.replicate 12 0 ++ [2, 0, 3, 0, 1, 0, 0, 0, 0, 0, 0x40, 0] ++
    List.replicate 36 0 ++ [0x73, 0x68, 0]

theorem emptyFile_header :
    readEhdr (fileMemory emptyFile) 0xd0000000 = .ok ⟨0x400000, 0, 0, 0⟩ := by
  rfl

theorem emptyFile_args : Args (fileMemory emptyFile) [0xd0000040] [[0x73, 0x68]] :=
  .cons ⟨by decide, rfl, by decide, rfl, by decide, rfl⟩ .nil

theorem noHeaders_frames (k : Bytes32) (data entry : Nat) :
    processFrames k data ⟨entry, 0, 0, 0⟩ = 5 := by
  simp [processFrames, segmentFrames, segments]

/-- Without segments 5 frames are enough. -/
theorem emptyFile_loads {s : Machine} (hready : Ready s) (hspare : Spare 5 s.pmm) :
    ∃ pd l s', newProcess (fileMemory emptyFile) s 0xd0000000 [0xd0000040] = .ok (pd, l, s') := by
  have hheader := emptyFile_header
  have hargs := emptyFile_args
  -- the bytes of the file are not needed any more
  generalize fileMemory emptyFile = k at hheader hargs ⊢
  obtain ⟨buf, esp, hstack, -⟩ := initialStack_ok hargs (by decide +kernel)
  exact newProcess_ok hready hheader (fun i hi => absurd hi (Nat.not_lt_zero i)) ⟨_, hstack⟩
    (noHeaders_frames k _ _ ▸ hspare)

theorem emptyFile_made : ∃ pd l s', newProcess (fileMemory emptyFile) KernelAreas.bootMachine
    0xd0000000 [0xd0000040] = .ok (pd, l, s') :=
  emptyFile_loads bootMachine_ready (KernelAreas.bootMachine_spare (by decide))

/-! ## The arguments -/

/-- The stack page lies in the user half. -/
theorem stackPage_dir {o : Nat} (ho : o < 4096) :
    STACK_PAGE + o < 2 ^ 32 ∧ dirIndex (STACK_PAGE + o) < 768 ∧
      (STACK_PAGE + o) / 4096 = STACK_PAGE / 4096 ∧ (STACK_PAGE + o) % 4096 = o := by
  simp only [STACK_PAGE, USER_STACK_TOP, PAGE_SIZE, dirIndex]
  omega

/-- **The arguments.**  Whatever file a process is made from, its start-up code finds
the strings of `argv`, for every `argv` that fits into the stack page. -/
theorem newProcess_decodes {k : Bytes32} {s s' : Machine} {data pd : Nat} {argv : List Nat}
    {strs : List (List Char8)} {l : Loaded} (h : Ready s)
    (hok : newProcess k s data argv = .ok (pd, l, s')) (hargs : Args k argv strs)
    (hfits : Fits strs) :
    ∃ argvPtr, Decodes (userView s'.phys pd) l.stackStart strs argvPtr := by
  obtain ⟨e, buf, -, hmade⟩ := Made.of_ok h hok
  obtain ⟨buf', esp, hstack, hpage⟩ := initialStack_ok hargs hfits
  rw [hmade.stack] at hstack
  obtain ⟨rfl, rfl⟩ := Prod.mk.inj (Except.ok.inj hstack)
  have hseen : ∀ o < 4096, userView s'.phys pd (STACK_PAGE + o) = some (buf o) := by
    intro o ho
    obtain ⟨hlt, hdir, hsame, hmod⟩ := stackPage_dir ho
    rw [hmade.seen _ hlt hdir, processView, stackView, if_pos hsame, hmod]
  have hne : ∀ t ∈ strs, ∀ c ∈ t, c ≠ 0 := by
    intro t ht
    obtain ⟨i, hi, rfl⟩ := List.getElem_of_mem ht
    obtain ⟨hlt, hstr⟩ := hargs.get (hargs.length_eq ▸ hi) hi
    exact hstr.ne_zero hlt
  exact ⟨_, hpage.decodes hseen hfits hne⟩

theorem emptyFile_decodes : ∃ pd l s', newProcess (fileMemory emptyFile) KernelAreas.bootMachine
    0xd0000000 [0xd0000040] = .ok (pd, l, s') ∧
    ∃ argvPtr, Decodes (userView s'.phys pd) l.stackStart [[0x73, 0x68]] argvPtr := by
  obtain ⟨pd, l, s', hok⟩ := emptyFile_made
  exact ⟨pd, l, s', hok, newProcess_decodes bootMachine_ready hok emptyFile_args
    (by decide +kernel)⟩

end FrogKernel.Loader
