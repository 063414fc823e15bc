import FrogKernel.Devices.Ioctl

/-!
# Reading and writing the framebuffer (`devices/fb/fb.c`, `framebuffer/framebuffer.c`)

`fb_init` allocates `pitch * height` bytes for the back buffer; `fb_read` and `fb_write`
clamp to `pitch * width`.  `fb_spans_buffer_iff`: they stay in the buffer and get to all
of it exactly when the two products are the same.
-/

namespace FrogKernel.Fb

open FrogKernel.Bytes FrogKernel.CStrings
open FrogKernel.Drivers (ssize)
open FrogKernel.Ioctl (FbInfoT addresses mem_addresses)
open FrogKernel.Kheap (add32 add32_lt)
open FrogKernel.Vfs (Ptr Drivers VnodeOps VfsState FileT getFile vfsWrite vfsTransfer)
open FrogKernel.FileCalls (vfsTransfer_open)

/-! ## The back buffer -/

def FRAMEBUFFER_OFFSET : Nat := 0xc0e00000

/-- The mode in the framebuffer tag. -/
structure FbTag where
  width : Nat
  height : Nat
  pitch : Nat
  bpp : Nat
  pitch_ge : 4 * width ≤ pitch
  rows_lt : pitch * height < 2 ^ 32
  cols_lt : pitch * width < 2 ^ 32

/-- `framebuffer_t` -/
structure FramebufferT where
  addr : Nat
  physAddr : Nat
  width : Nat
  height : Nat
  bpp : Nat
  pitch : Nat
  size : Nat

/-- `fb_init`; `addr` is what `kalloc_pages` returned. -/
def fbInit (tag : FbTag) (addr : Nat) : FramebufferT where
  addr := addr
  physAddr := FRAMEBUFFER_OFFSET
  width := tag.width
  height := tag.height
  bpp := tag.bpp
  pitch := tag.pitch
  size := tag.height * tag.pitch % 2 ^ 32

/-- The `fb_info_t` that `fb_register` makes of the framebuffer. -/
def fbRegister (fb : FramebufferT) : FbInfoT where
  physAddr := fb.physAddr
  virtAddr := fb.addr
  width := fb.width
  height := fb.height
  pitch := fb.pitch
  bpp := fb.bpp

/-- A mode with its back buffer, which lies in the address space. -/
structure Screen where
  tag : FbTag
  addr : Nat
  fits : addr + tag.pitch * tag.height ≤ 2 ^ 32
  addr_lt : addr < 2 ^ 32

def Screen.info (scr : Screen) : FbInfoT := fbRegister (fbInit scr.tag scr.addr)

/-- A byte of the back buffer. -/
def Screen.Buffer (scr : Screen) (a : Nat) : Prop :=
  scr.addr ≤ a ∧ a < scr.addr + scr.tag.pitch * scr.tag.height

/-! ## `fb.c` -/

/-- The memory, and the addresses that the driver accessed through `virt_addr`. -/
structure FbWorld where
  /-- `private_data` of the vnodes of `/dev/fb0` -/
  device : Ptr → Option FbInfoT
  mem : Mem
  accessed : List Nat

def memcpy (m : Mem) (d s : Nat) : Nat → Mem
  | 0 => m
  | n + 1 => memcpy (Function.update m d (m s)) (add32 d 1) (add32 s 1) n

/-- `size_t fb_size = fb->pitch * fb->width` -/
def fbSize (fb : FbInfoT) : Nat := fb.pitch * fb.width % 2 ^ 32

/-- The common part of `fb_read` and `fb_write`; `copy` is its `memcpy`. -/
def fbTransfer (copy : Mem → Nat → Nat → Nat → Mem) (fb : FbInfoT) (w : FbWorld)
    (buf len offset : Nat) : Int × FbWorld :=
  if offset ≥ fbSize fb then (0, w)
  else
    let available := fbSize fb - offset
    let toCopy := if len < available then len else available
    let ptr := add32 fb.virtAddr offset
    (ssize toCopy, { w with
      mem := copy w.mem buf ptr toCopy
      accessed := w.accessed ++ addresses ptr toCopy })

def fbRead : FbInfoT → FbWorld → Nat → Nat → Nat → Int × FbWorld :=
  fbTransfer fun m buf ptr toRead => memcpy m buf ptr toRead

def fbWrite : FbInfoT → FbWorld → Nat → Nat → Nat → Int × FbWorld :=
  fbTransfer fun m buf ptr toWrite => memcpy m ptr buf toWrite

/-- `fb_ops` -/
def fbOps (fb : FbInfoT) : VnodeOps FbWorld where
  opRead := some fun w _ buf len offset => fbRead fb w buf len offset
  opWrite := some fun w _ buf len offset => fbWrite fb w buf len offset

/-- The vnodes of `/dev/fb0`; `resolve` is the path lookup. -/
def fbDrivers (resolve : FbWorld → List Char8 → Option Ptr × FbWorld)
    (flags : FbWorld → Ptr → Nat) : Drivers FbWorld where
  vfsResolve := resolve
  flags := flags
  ops w node := (w.device node).map fbOps

/-- Whatever the offset and the length, only bytes of the back buffer are accessed. -/
def StaysInBuffer (scr : Screen) : Prop :=
  ∀ (w : FbWorld) (buf len offset : Nat), w.accessed = [] →
    (∀ a ∈ (fbRead scr.info w buf len offset).2.accessed, scr.Buffer a) ∧
    ∀ a ∈ (fbWrite scr.info w buf len offset).2.accessed, scr.Buffer a

/-- The state after writes with these buffers and lengths. -/
def afterWrites (d : Drivers FbWorld) (fd : Int) (s : VfsState FbWorld)
    (calls : List (Nat × Nat)) : VfsState FbWorld :=
  calls.foldl (fun s c => (vfsWrite d s fd c.1 c.2).2) s

/-- `fd` is open on `/dev/fb0`, at the offset `o`. -/
structure OpenAt (fb : FbInfoT) (s : VfsState FbWorld) (fd : Int) (o : Nat) : Prop where
  file : getFile s fd ≠ 0
  device : s.world.device (s.files (getFile s fd)).vnode = some fb
  offset : (s.files (getFile s fd)).offset = o

/-- Every byte of the back buffer has been written or can still be, whatever has been
written through the descriptor. -/
def GetsEverywhere (d : Drivers FbWorld) (scr : Screen) : Prop :=
  ∀ (s : VfsState FbWorld) (fd : Int), OpenAt scr.info s fd 0 → s.world.accessed = [] →
    ∀ calls a, scr.Buffer a → ∃ more, a ∈ (afterWrites d fd s (calls ++ more)).world.accessed

/-! ## One access -/

/-- What an access returns and goes over. -/
theorem fbTransfer_spec (copy : Mem → Nat → Nat → Nat → Mem) (fb : FbInfoT) (w : FbWorld)
    (buf len offset : Nat) :
    let n := min len (fbSize fb - offset)
    let r := fbTransfer copy fb w buf len offset
    r.1 = ssize n ∧ r.2.device = w.device ∧
      r.2.accessed = w.accessed ++ addresses (add32 fb.virtAddr offset) n := by
  unfold fbTransfer
  dsimp only
  split
  case isTrue h =>
    rw [Nat.sub_eq_zero_of_le h, Nat.min_zero, addresses, List.append_nil]
    exact ⟨rfl, rfl, rfl⟩
  case isFalse h =>
    have hmin : (if len < fbSize fb - offset then len else fbSize fb - offset) =
        min len (fbSize fb - offset) := by
      rw [min_def]
      split <;> split <;> omega
    rw [hmin]
    exact ⟨rfl, rfl, rfl⟩

theorem mem_accesses {virt offset n a : Nat} :
    a ∈ addresses (add32 virt offset) n ↔
      ∃ k, offset ≤ k ∧ k < offset + n ∧ a = (virt + k) % 2 ^ 32 := by
  rw [mem_addresses (add32_lt virt offset), add32]
  constructor
  · rintro ⟨i, hi, rfl⟩
    exact ⟨offset + i, by omega, by omega, by omega⟩
  · rintro ⟨k, h1, h2, rfl⟩
    exact ⟨k - offset, by omega, by omega⟩

theorem fbSize_lt (fb : FbInfoT) : fbSize fb < 2 ^ 32 := Nat.mod_lt _ (by decide)

variable {scr : Screen}

theorem Screen.fbSize_eq : fbSize scr.info = scr.tag.pitch * scr.tag.width :=
  Nat.mod_eq_of_lt scr.tag.cols_lt

/-- The `k`-th byte from `virt_addr` on. -/
theorem Screen.buffer_iff {k : Nat} (hk : k < 2 ^ 32) :
    scr.Buffer ((scr.info.virtAddr + k) % 2 ^ 32) ↔ k < scr.tag.pitch * scr.tag.height := by
  have hvirt : scr.info.virtAddr = scr.addr := rfl
  have hfits := scr.fits
  have haddr := scr.addr_lt
  rw [hvirt, Screen.Buffer]
  generalize scr.tag.pitch * scr.tag.height = size at *
  omega

theorem Screen.Buffer.exists_index {a : Nat} (h : scr.Buffer a) :
    ∃ k < scr.tag.pitch * scr.tag.height, a = (scr.info.virtAddr + k) % 2 ^ 32 := by
  have hvirt : scr.info.virtAddr = scr.addr := rfl
  have hfits := scr.fits
  obtain ⟨h1, h2⟩ := h
  rw [hvirt]
  generalize scr.tag.pitch * scr.tag.height = size at *
  exact ⟨a - scr.addr, by omega, by omega⟩

theorem stays_in_buffer_iff :
    StaysInBuffer scr ↔ scr.tag.pitch * scr.tag.width ≤ scr.tag.pitch * scr.tag.height := by
  constructor
  · intro hstays
    by_contra hle
    have hlt : scr.tag.pitch * scr.tag.height < fbSize scr.info := by
      rw [Screen.fbSize_eq]
      omega
    -- the byte behind the buffer
    have hread := (hstays ⟨fun _ => none, fun _ => 0, []⟩ 0 1
      (scr.tag.pitch * scr.tag.height) rfl).1
    rw [fbRead, (fbTransfer_spec _ _ _ _ _ _).2.2, List.nil_append] at hread
    have hmem := hread _ (mem_accesses.mpr ⟨_, Nat.le_refl _, by omega, rfl⟩)
    rw [Screen.buffer_iff scr.tag.rows_lt] at hmem
    exact Nat.lt_irrefl _ hmem
  · intro hle w buf len offset hlog
    have hsize := fbSize_lt scr.info
    rw [← Screen.fbSize_eq] at hle
    have hall : ∀ a ∈ addresses (add32 scr.info.virtAddr offset)
        (min len (fbSize scr.info - offset)), scr.Buffer a := by
      intro a ha
      obtain ⟨k, h1, h2, rfl⟩ := mem_accesses.mp ha
      have hk : k < fbSize scr.info := by omega
      rw [Screen.buffer_iff (Nat.lt_trans hk hsize)]
      exact Nat.lt_of_lt_of_le hk hle
    rw [fbRead, fbWrite, (fbTransfer_spec _ _ _ _ _ _).2.2, (fbTransfer_spec _ _ _ _ _ _).2.2, hlog,
      List.nil_append]
    exact ⟨hall, hall⟩

/-! ## Writes through a descriptor -/

section Writes

variable (resolve : FbWorld → List Char8 → Option Ptr × FbWorld) (flags : FbWorld → Ptr → Nat)
  {fb : FbInfoT} {s : VfsState FbWorld} {fd : Int} {o : Nat}

theorem ssize_cases {n : Nat} (h : n < 2 ^ 32) :
    ssize n > 0 ∧ (ssize n).toNat = n ∨ ¬ ssize n > 0 := by
  unfold ssize
  split <;> omega

/-- **One write.**  A length that comes out negative as a `ssize_t` is written, but does
not move the offset. -/
theorem OpenAt.write (h : OpenAt fb s fd o) (ho : o ≤ fbSize fb) (buf len : Nat) :
    let n := min len (fbSize fb - o)
    let s' := (vfsWrite (fbDrivers resolve flags) s fd buf len).2
    s'.world.accessed = s.world.accessed ++ addresses (add32 fb.virtAddr o) n ∧
      (OpenAt fb s' fd o ∨ OpenAt fb s' fd (o + n)) := by
  have hop : (((fbDrivers resolve flags).ops s.world (s.files (getFile s fd)).vnode).bind
      (·.opWrite)) = some fun w _ buf len offset => fbWrite fb w buf len offset := by
    simp only [fbDrivers, h.device, Option.map_some, Option.bind_some, fbOps]
  have hsize := fbSize_lt fb
  obtain ⟨hres, hdev, hacc⟩ := fbTransfer_spec (fun m buf ptr n => memcpy m ptr buf n) fb s.world
    buf len o
  unfold vfsWrite
  rw [vfsTransfer_open h.file hop buf len]
  dsimp only
  rw [h.offset, fbWrite]
  generalize fbTransfer _ fb s.world buf len o = r at hres hdev hacc ⊢
  generalize hn : min len (fbSize fb - o) = n at hres hacc ⊢
  have hn_le : n ≤ fbSize fb - o := by omega
  rcases ssize_cases (Nat.lt_of_le_of_lt hn_le (by omega)) with ⟨hpos, hnat⟩ | hneg
  · rw [hres, if_pos hpos]
    refine ⟨hacc, Or.inr ⟨h.file, ?_, ?_⟩⟩
    · have hvnode := congrArg FileT.vnode (Function.update_self (getFile s fd)
        { s.files (getFile s fd) with offset := (o + (ssize n).toNat) % 2 ^ 32 } s.files)
      have hdevice := congrFun hdev (s.files (getFile s fd)).vnode
      rw [h.device] at hdevice
      exact (congrArg r.2.device hvnode).trans hdevice
    · have hoffset := congrArg FileT.offset (Function.update_self (getFile s fd)
        { s.files (getFile s fd) with offset := (o + (ssize n).toNat) % 2 ^ 32 } s.files)
      refine hoffset.trans ?_
      rw [hnat]
      exact Nat.mod_eq_of_lt (by omega)
  · rw [hres, if_neg hneg]
    exact ⟨hacc, Or.inl ⟨h.file, (congrFun hdev _).trans h.device, h.offset⟩⟩

/-- What has been written when the descriptor stands at `o`: all bytes before it, and
nothing behind the size of the device. -/
structure Written (fb : FbInfoT) (s : VfsState FbWorld) (fd : Int) (o : Nat) : Prop
    extends OpenAt fb s fd o where
  le : o ≤ fbSize fb
  before : ∀ k < o, (fb.virtAddr + k) % 2 ^ 32 ∈ s.world.accessed
  within : ∀ a ∈ s.world.accessed, ∃ k < fbSize fb, a = (fb.virtAddr + k) % 2 ^ 32

theorem Written.write (h : Written fb s fd o) (buf len : Nat) :
    ∃ o', Written fb (vfsWrite (fbDrivers resolve flags) s fd buf len).2 fd o' := by
  obtain ⟨hacc, hopen⟩ := h.toOpenAt.write resolve flags h.le buf len
  generalize (vfsWrite (fbDrivers resolve flags) s fd buf len).2 = s' at hacc hopen
  have hle := h.le
  have hwithin : ∀ a ∈ s'.world.accessed, ∃ k < fbSize fb, a = (fb.virtAddr + k) % 2 ^ 32 := by
    intro a ha
    rw [hacc, List.mem_append] at ha
    rcases ha with ha | ha
    · exact h.within a ha
    · obtain ⟨k, -, hk, rfl⟩ := mem_accesses.mp ha
      exact ⟨k, by omega, rfl⟩
  rcases hopen with hopen | hopen
  · refine ⟨o, hopen, hle, fun k hk => ?_, hwithin⟩
    rw [hacc]
    exact List.mem_append_left _ (h.before k hk)
  · refine ⟨_, hopen, by omega, fun k hk => ?_, hwithin⟩
    rw [hacc, List.mem_append]
    by_cases hko : k < o
    · exact Or.inl (h.before k hko)
    · exact Or.inr (mem_accesses.mpr ⟨k, by omega, hk, rfl⟩)

/-- **The writes of a descriptor.** -/
theorem Written.writes (h : Written fb s fd o) (calls : List (Nat × Nat)) :
    ∃ o', Written fb (afterWrites (fbDrivers resolve flags) fd s calls) fd o' := by
  induction calls generalizing s o with
  | nil => exact ⟨o, h⟩
  | cons c calls ih =>
    obtain ⟨o', h'⟩ := h.write resolve flags c.1 c.2
    exact ih h'

theorem OpenAt.written (h : OpenAt fb s fd 0) (hlog : s.world.accessed = []) :
    Written fb s fd 0 where
  toOpenAt := h
  le := Nat.zero_le _
  before k hk := absurd hk (Nat.not_lt_zero k)
  within _ ha := absurd (hlog ▸ ha) List.not_mem_nil

/-- One more write, to the end, gets to every byte of the device. -/
theorem Written.reaches (h : Written fb s fd o) {k : Nat} (hk : k < fbSize fb) :
    (fb.virtAddr + k) % 2 ^ 32 ∈ (afterWrites (fbDrivers resolve flags) fd s
      [(0, fbSize fb)]).world.accessed := by
  have hacc := (h.toOpenAt.write resolve flags h.le 0 (fbSize fb)).1
  have hwrite : (afterWrites (fbDrivers resolve flags) fd s [(0, fbSize fb)]) =
      (vfsWrite (fbDrivers resolve flags) s fd 0 (fbSize fb)).2 := rfl
  rw [hwrite, hacc, List.mem_append]
  by_cases hko : k < o
  · exact Or.inl (h.before k hko)
  · exact Or.inr (mem_accesses.mpr ⟨k, by omega, by omega, rfl⟩)

/-- `/dev/fb0` just opened as descriptor 0 of the kernel. -/
def fbOpen (fb : FbInfoT) : VfsState FbWorld where
  kernelFdTable i := if i = 0 then 100 else 0
  fds _ _ := 0
  currProcess := 0
  files _ := ⟨1, 0, 0, 1⟩
  live _ := true
  world := ⟨fun _ => some fb, fun _ => 0, []⟩

theorem fbOpen_openAt (fb : FbInfoT) : OpenAt fb (fbOpen fb) 0 0 :=
  ⟨show (100 : Nat) ≠ 0 by decide, rfl, rfl⟩

theorem gets_everywhere_iff : GetsEverywhere (fbDrivers resolve flags) scr ↔
    scr.tag.pitch * scr.tag.height ≤ scr.tag.pitch * scr.tag.width := by
  have hsize := fbSize_lt scr.info
  rw [← Screen.fbSize_eq]
  constructor
  · intro hall
    by_contra hle
    -- the first byte behind the size of the device
    have hbyte : scr.Buffer ((scr.info.virtAddr + fbSize scr.info) % 2 ^ 32) :=
      (Screen.buffer_iff hsize).mpr (by omega)
    obtain ⟨more, hmore⟩ := hall (fbOpen scr.info) 0 (fbOpen_openAt _) rfl [] _ hbyte
    obtain ⟨o, hw⟩ := ((fbOpen_openAt scr.info).written rfl).writes resolve flags more
    obtain ⟨k, hk, heq⟩ := hw.within _ hmore
    omega
  · intro hle s fd hopen hlog calls a ha
    obtain ⟨o, hw⟩ := (hopen.written hlog).writes resolve flags calls
    refine ⟨[(0, fbSize scr.info)], ?_⟩
    obtain ⟨k, hk, rfl⟩ := ha.exists_index
    have happend : afterWrites (fbDrivers resolve flags) fd s (calls ++ [(0, fbSize scr.info)]) =
        afterWrites (fbDrivers resolve flags) fd (afterWrites (fbDrivers resolve flags) fd s calls)
          [(0, fbSize scr.info)] := List.foldl_append
    rw [happend]
    exact hw.reaches resolve flags (Nat.lt_of_lt_of_le hk hle)

end Writes

/-- **The size of the device.**  `/dev/fb0` spans the back buffer exactly when the pitch
times the width is what was allocated, the pitch times the height. -/
theorem fb_spans_buffer_iff (resolve : FbWorld → List Char8 → Option Ptr × FbWorld)
    (flags : FbWorld → Ptr → Nat) (scr : Screen) :
    StaysInBuffer scr ∧ GetsEverywhere (fbDrivers resolve flags) scr ↔
      scr.tag.pitch * scr.tag.width = scr.tag.pitch * scr.tag.height := by
  rw [stays_in_buffer_iff, gets_everywhere_iff]
  omega

/-- 1024 by 768 pixels with 32 bits each. -/
def landscape : Screen where
  tag := ⟨1024, 768, 4096, 32, by decide, by decide, by decide⟩
  addr := 0xd0000000
  fits := by decide
  addr_lt := by decide

/-- A byte written at the end of the back buffer goes behind it. -/
theorem landscape_overrun : ¬ (StaysInBuffer landscape ∧
    GetsEverywhere (fbDrivers (fun w _ => (none, w)) fun _ _ => 0) landscape) := by
  rintro ⟨hstays, -⟩
  have hbyte := (hstays ⟨fun _ => none, fun _ => 0, []⟩ 0x1000 1 0x300000 rfl).2 0xd0300000
    (by decide)
  exact absurd hbyte.2 (by decide)

end FrogKernel.Fb
