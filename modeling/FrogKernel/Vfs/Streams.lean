import FrogKernel.Userspace.UserBuffer
import FrogKernel.Vfs.FileCalls
import FrogKernel.Vfs.FindMount

/-!
# Reading a file from start to end (`vfs/vfs.c`, `initrd/initrdfs.c`)

`vfs_read` hands the offset of the `file_t` to the driver and moves it by what the driver
returns; the driver clamps the length to what is left of the file.  `OpenAt` is the
state between two reads.

`reads_deliver`: whatever the lengths, the reads deliver the file in order, and as
many bytes as `vfs_stat` reports.
-/

namespace FrogKernel.FileCalls

open FrogKernel.Bytes FrogKernel.CStrings FrogKernel.Paths FrogKernel.Initrd FrogKernel.Opening
open FrogKernel.Vfs (Ptr Drivers VnodeOps VfsState FsMount MAX_FDS VFS_DIRECTORY getFile vfsOpen
  vfsRead vfsStat vfsTransfer vfsQuery openFile callOpen covered enter Follows Mounted nearest
  fileAt getFile_eq setActive)
open FrogKernel.Syscall (toInt32)

/-! ## Bytes in a row -/

/-- The `n` bytes from `a` on. -/
def bytesFrom (m : Mem) (a n : Nat) : List Char8 := (List.range n).map fun i => m (a + i)

theorem bytesFrom_add (m : Mem) (a n k : Nat) :
    bytesFrom m a (n + k) = bytesFrom m a n ++ bytesFrom m (a + n) k := by
  simp only [bytesFrom, List.range_add, List.map_append, List.map_map, Function.comp_def,
    Nat.add_assoc]

theorem bytesFrom_length (m : Mem) (a n : Nat) : (bytesFrom m a n).length = n := by
  rw [bytesFrom, List.length_map, List.length_range]

theorem bytesFrom_take (m : Mem) (a n k : Nat) :
    (bytesFrom m a n).take k = bytesFrom m a (min k n) := by
  rw [bytesFrom, bytesFrom, ← List.map_take, List.take_range]

/-- What was copied, in its new place. -/
theorem bytesFrom_copy (m : Mem) (d : Nat) (src : Mem) (s n : Nat) :
    bytesFrom (copy m d src s n) d n = bytesFrom src s n := by
  refine List.map_congr_left fun i hi => ?_
  have hlt := List.mem_range.mp hi
  rw [copy_apply, if_pos (by omega), Nat.add_sub_cancel_left]

/-! ## A sequence of reads -/

section Reads

variable (d : Drivers FsWorld) (fd : Int)

/-- The bytes that a read returns in its buffer. -/
def delivered (s : VfsState FsWorld) (buf len : Nat) : List Char8 :=
  bytesFrom (vfsRead d s fd buf len).2.world.user buf (vfsRead d s fd buf len).1.toNat

/-- The state after reads with these buffers and lengths. -/
def afterReads (s : VfsState FsWorld) (calls : List (Nat × Nat)) : VfsState FsWorld :=
  calls.foldl (fun s c => (vfsRead d s fd c.1 c.2).2) s

/-- What they deliver, one after the other. -/
def deliveredAll (s : VfsState FsWorld) : List (Nat × Nat) → List Char8
  | [] => []
  | c :: calls => delivered d fd s c.1 c.2 ++ deliveredAll (vfsRead d s fd c.1 c.2).2 calls

def total (calls : List (Nat × Nat)) : Nat := (calls.map Prod.snd).sum

/-- The reads deliver a file with these bytes, and `vfs_stat` its size. -/
structure Delivers (s : VfsState FsWorld) (content : List Char8) (calls : List (Nat × Nat)) :
    Prop where
  concat : deliveredAll d fd s calls = content.take (total calls)
  counts : ∀ past c rest, calls = past ++ c :: rest →
    let before := afterReads d fd s past
    let r := vfsRead d before fd c.1 c.2
    r.1 = (delivered d fd before c.1 c.2).length ∧
      ∀ x, x < c.1 ∨ c.1 + r.1.toNat ≤ x → r.2.world.user x = before.world.user x
  atEnd : ∀ past c rest, calls = past ++ c :: rest → content.length ≤ total past →
    vfsRead d (afterReads d fd s past) fd c.1 c.2 = (0, afterReads d fd s past)
  size : ∀ st, (vfsStat d (afterReads d fd s calls) fd st).1 = 0 ∧
    (content.length ≤ total calls → ((deliveredAll d fd s calls).length : Int) =
      toInt32 (read32 (vfsStat d (afterReads d fd s calls) fd st).2.world.user (st + ST_SIZE)))

end Reads

/-! ## An open file -/

/-- `fd` is open on the entry `e`, at the offset `o`. -/
structure OpenAt (s : VfsState FsWorld) (fd : Int) (es : List Found) (e : Found) (o : Nat) :
    Prop where
  readable : Readable s.world.disk.initrd s.world.disk.archive es
  mem : e ∈ es
  regular : e.file.typeflag ≠ DIRTYPE
  small : e.file.size < 2 ^ 31
  file : getFile s fd ≠ 0
  vnode : ∃ node, s.world.vnode (s.files (getFile s fd)).vnode = .initrd node ∧
    Stands es node e.path
  offset : (s.files (getFile s fd)).offset = o

section Step

variable {deviceOps : DevfsEntry → VnodeOps FsWorld} {s : VfsState FsWorld} {fd : Int}
  {es : List Found} {e : Found} {o : Nat}

theorem fsOps_file {node : Initrd.Vnode} (h : node.ops = .initrdFileOps) :
    fsOps deviceOps (.initrd node) =
      { opRead := some (fileRead node), opStat := some (fileStat node) } := by
  obtain ⟨flags, size, ops, mounted, path⟩ := node
  obtain rfl : ops = .initrdFileOps := h
  rfl

variable (deviceOps)

/-- The vnode of a regular file has the operations of files. -/
theorem OpenAt.fileOps (h : OpenAt s fd es e o) : ∃ node,
    s.world.vnode (s.files (getFile s fd)).vnode = .initrd node ∧ Stands es node e.path ∧
      (fsDrivers deviceOps).ops s.world (s.files (getFile s fd)).vnode =
        some { opRead := some (fileRead node), opStat := some (fileStat node) } := by
  obtain ⟨node, hnode, hstands⟩ := h.vnode
  have hkind := hstands.kind
  rw [if_neg fun hdir => h.regular ((h.readable.isDir_iff h.mem).mp hdir)] at hkind
  refine ⟨node, hnode, hstands, ?_⟩
  have hops : (fsDrivers deviceOps).ops s.world (s.files (getFile s fd)).vnode =
      some (fsOps deviceOps (s.world.vnode (s.files (getFile s fd)).vnode)) := rfl
  rw [hops, hnode, fsOps_file hkind.2]

theorem toInt_small {n : Nat} (h : n < 2 ^ 31) : (BitVec.ofNat 32 n).toInt = n := by
  rw [BitVec.toInt_ofNat', Int.bmod_def]
  omega

/-- **One read.** -/
theorem OpenAt.read (h : OpenAt s fd es e o) (ho : o ≤ e.file.size) (buf len : Nat) :
    ∃ s', vfsRead (fsDrivers deviceOps) s fd buf len =
        (((min len (e.file.size - o) : Nat) : Int), s') ∧
      OpenAt s' fd es e (o + min len (e.file.size - o)) ∧
      s'.world.disk = s.world.disk ∧
      s'.world.user = copy s.world.user buf s.world.disk.archive (e.file.data + o)
        (min len (e.file.size - o)) ∧
      (min len (e.file.size - o) = 0 → s' = s) := by
  obtain ⟨node, hnode, hstands, hops⟩ := h.fileOps deviceOps
  have hsmall := h.small
  have hread : fileRead node s.world (s.files (getFile s fd)).vnode buf len o =
      (((min len (e.file.size - o) : Nat) : Int), { s.world with
        user := copy s.world.user buf s.world.disk.archive (e.file.data + o)
          (min len (e.file.size - o)) }) := by
    rw [fileRead, initrdFileRead_eq h.readable _ h.mem hstands, finish, toInt_small (by omega)]
  have hop : ((fsDrivers deviceOps).ops s.world (s.files (getFile s fd)).vnode).bind (·.opRead) =
      some (fileRead node) := by
    rw [hops]
    rfl
  have hcall := vfsTransfer_open h.file hop buf len
  dsimp only at hcall
  rw [h.offset, hread] at hcall
  generalize hn : min len (e.file.size - o) = n at hcall ⊢
  have hmoved : (o + n) % 2 ^ 32 = o + n := Nat.mod_eq_of_lt (by omega)
  dsimp only at hcall
  rw [Int.toNat_natCast, hmoved] at hcall
  by_cases h0 : n = 0
  · subst h0
    have hnone : copy s.world.user buf s.world.disk.archive (e.file.data + o) 0 = s.world.user := by
      funext x
      rw [copy_apply, if_neg (by omega)]
    rw [if_neg (by decide), hnone] at hcall
    exact ⟨s, hcall, h, rfl, hnone.symm, fun _ => rfl⟩
  · rw [if_pos (by omega)] at hcall
    refine ⟨_, hcall, ?_, rfl, rfl, fun h0' => absurd h0' h0⟩
    have hself : (Function.update s.files (getFile s fd)
        { s.files (getFile s fd) with offset := o + n }) (getFile s fd) =
        { s.files (getFile s fd) with offset := o + n } := Function.update_self ..
    refine ⟨h.readable, h.mem, h.regular, h.small, h.file, ⟨node, ?_, hstands⟩, ?_⟩
    · exact (congrArg (fun f => s.world.vnode f.vnode) hself).trans hnode
    · exact congrArg Vfs.FileT.offset hself

/-- **`vfs_stat`** of an open file. -/
theorem OpenAt.stat (h : OpenAt s fd es e o) (st : Nat) :
    (vfsStat (fsDrivers deviceOps) s fd st).1 = 0 ∧
      read32 (vfsStat (fsDrivers deviceOps) s fd st).2.world.user (st + ST_SIZE) =
        e.file.size := by
  obtain ⟨node, hnode, hstands, hops⟩ := h.fileOps deviceOps
  have hdata : e.file.data ≠ 0 := by
    rw [(h.readable.scan.mem e h.mem).1]
    exact Nat.succ_ne_zero _
  have hcall : vfsStat (fsDrivers deviceOps) s fd st =
      ((fileStat node s.world (s.files (getFile s fd)).vnode st).1,
        { s with world := (fileStat node s.world (s.files (getFile s fd)).vnode st).2 }) :=
    @vfsQuery_open _ s fd _ (fun w p => fileStat node w p st) h.file (by rw [hops]; rfl)
  have hsmall := h.small
  rw [hcall, fileStat, initrdFileStat, h.readable.lookup _ hstands.path,
    lookupIn_mem h.readable.distinct h.mem, Option.map_some, if_neg hdata]
  refine ⟨rfl, ?_⟩
  dsimp only [finish]
  rw [read32, write32, write32, readN_writeN_apart _ _ (by rw [ST_MODE, ST_SIZE]; omega),
    readN_writeN_self _ (by omega)]

/-! ## Runs of reads -/

theorem afterReads_cons (d : Drivers FsWorld) (fd : Int) (s : VfsState FsWorld) (c : Nat × Nat)
    (calls : List (Nat × Nat)) : afterReads d fd s (c :: calls) =
      afterReads d fd (vfsRead d s fd c.1 c.2).2 calls := rfl

theorem total_cons (c : Nat × Nat) (calls : List (Nat × Nat)) :
    total (c :: calls) = c.2 + total calls := by
  rw [total, total, List.map_cons, List.sum_cons]

/-- **All reads.** -/
theorem OpenAt.reads (h : OpenAt s fd es e o) (ho : o ≤ e.file.size) (calls : List (Nat × Nat)) :
    OpenAt (afterReads (fsDrivers deviceOps) fd s calls) fd es e
        (min (o + total calls) e.file.size) ∧
      (afterReads (fsDrivers deviceOps) fd s calls).world.disk = s.world.disk ∧
      deliveredAll (fsDrivers deviceOps) fd s calls =
        bytesFrom s.world.disk.archive (e.file.data + o) (min (total calls) (e.file.size - o)) := by
  induction calls generalizing s o with
  | nil =>
    have htotal : total [] = 0 := rfl
    rw [htotal, Nat.zero_min, Nat.add_zero, Nat.min_eq_left ho]
    exact ⟨h, rfl, rfl⟩
  | cons c calls ih =>
    obtain ⟨s', hread, hopen, hdisk, huser, -⟩ := h.read deviceOps ho c.1 c.2
    have hdelivered : delivered (fsDrivers deviceOps) fd s c.1 c.2 =
        bytesFrom s.world.disk.archive (e.file.data + o) (min c.2 (e.file.size - o)) := by
      rw [delivered, hread]
      dsimp only
      rw [Int.toNat_natCast, huser, bytesFrom_copy]
    obtain ⟨hafter, hdisk', hrest⟩ := ih hopen (by omega)
    rw [afterReads_cons, deliveredAll, hdelivered, hread]
    dsimp only
    rw [hrest, hdisk, ← Nat.add_assoc e.file.data o, ← bytesFrom_add, total_cons]
    refine ⟨?_, hdisk'.trans hdisk, ?_⟩
    · have hsum : min (o + min c.2 (e.file.size - o) + total calls) e.file.size =
          min (o + (c.2 + total calls)) e.file.size := by omega
      rw [← hsum]
      exact hafter
    · congr 1
      omega

theorem OpenAt.delivers (h : OpenAt s fd es e 0) (calls : List (Nat × Nat)) :
    Delivers (fsDrivers deviceOps) fd s
      (bytesFrom s.world.disk.archive e.file.data e.file.size) calls := by
  have hreads := fun calls => h.reads deviceOps (Nat.zero_le _) calls
  simp only [Nat.zero_add, Nat.add_zero, Nat.sub_zero] at hreads
  obtain ⟨hafter, -, hall⟩ := hreads calls
  refine ⟨?_, ?_, ?_, fun st => ?_⟩
  · rw [hall, bytesFrom_take]
  · rintro past c rest -
    obtain ⟨hbefore, -, -⟩ := hreads past
    obtain ⟨s', hread, -, -, huser, -⟩ :=
      hbefore.read deviceOps (Nat.min_le_right _ _) c.1 c.2
    simp only [delivered, bytesFrom_length, hread, huser, Int.toNat_natCast]
    refine ⟨trivial, fun x hx => ?_⟩
    rw [copy_apply, if_neg (by omega)]
  · rintro past c rest - hend
    rw [bytesFrom_length] at hend
    obtain ⟨hbefore, -, -⟩ := hreads past
    obtain ⟨s', hread, -, -, -, hsame⟩ :=
      hbefore.read deviceOps (Nat.min_le_right _ _) c.1 c.2
    have hnone : min c.2 (e.file.size - min (total past) e.file.size) = 0 := by omega
    rw [hread, hsame hnone, hnone]
    rfl
  · obtain ⟨hret, hsize⟩ := hafter.stat deviceOps st
    refine ⟨hret, fun hend => ?_⟩
    rw [bytesFrom_length] at hend
    have hsmall := h.small
    rw [hsize, hall, bytesFrom_length, Nat.min_eq_right hend, toInt32, if_pos hsmall]

end Step

/-! ## Opening it -/

/-- `find_mount` finds the initrd, mounted at `/`. -/
structure SelectsInitrd (w : FsWorld) (p : List Char8) : Prop where
  mounted : ∀ mnt ∈ w.mounts, Mounted mnt
  selects : ∃ mnt root, nearest w.mounts p = some mnt ∧ mnt.name = [SLASH] ∧
    mnt.root = some (.initrd root) ∧
    initrdGetRoot w.disk.initrd w.disk.archive w.disk.stack w.disk.heap = some root

/-- An initrd vnode for the path. -/
def StandsFor (es : List Found) (v : VnodeT) (d : List Char8) : Prop :=
  ∃ node, v = .initrd node ∧ Stands es node d

/-- Its vnodes follow the paths among those of all file systems. -/
theorem disk_follows {disk : Disk} {es : List Found}
    (h : Readable disk.initrd disk.archive es) :
    Follows disk.nodes (StandsFor es) (dirStep es) := by
  rintro _ d ⟨node, rfl, hnode⟩ component c hcomp hne hsep hlen
  obtain ⟨found, hfound, hrel⟩ :=
    follows h disk.stack disk.heap node d hnode component c hcomp hne hsep hlen
  have hmounted : (initrdNodes disk.initrd disk.archive disk.stack disk.heap).mountedHere node =
      none := hnode.mounted
  refine ⟨found.map .initrd, ?_, ?_⟩
  · rw [enter, hmounted] at hfound
    rw [enter]
    have hflags : disk.nodes.flags (.initrd node) =
        (initrdNodes disk.initrd disk.archive disk.stack disk.heap).flags node := rfl
    have hnone : disk.nodes.mountedHere (.initrd node) = none := rfl
    have hfinddir : disk.nodes.finddir (.initrd node) =
        ((initrdNodes disk.initrd disk.archive disk.stack disk.heap).finddir node).map
          fun finddir name => (finddir name).map (Option.map .initrd) := rfl
    rw [hflags, hnone]
    split
    case isTrue hzero =>
      rw [if_pos hzero] at hfound
      obtain rfl := Option.some.inj hfound
      rfl
    case isFalse hdir =>
      rw [if_neg hdir] at hfound
      simp only [Option.getD_none] at hfound ⊢
      rw [hfinddir]
      generalize (initrdNodes disk.initrd disk.archive disk.stack disk.heap).finddir node = op
        at hfound ⊢
      cases op with
      | none =>
        obtain rfl := Option.some.inj hfound
        rfl
      | some finddir =>
        rw [Option.map_some]
        exact congrArg (Option.map (Option.map VnodeT.initrd)) hfound
  · generalize dirStep es d c = next at hrel ⊢
    cases hrel with
    | none => exact .none
    | some hchild => exact .some ⟨_, rfl, hchild⟩

/-- `vfs_resolve` of the path of an entry makes a vnode for it. -/
theorem fsResolve_entry {w : FsWorld} {es : List Found} {e : Found}
    (h : WellFormed w.disk.initrd w.disk.archive es) (he : e ∈ es) (hclean : Clean SLASH e.path)
    (hsel : SelectsInitrd w (SLASH :: e.path)) :
    ∃ node, Stands es node e.path ∧ fsResolve w (SLASH :: e.path) = (some w.nextVnode, { w with
      vnode := Function.update w.vnode w.nextVnode (.initrd node)
      nextVnode := w.nextVnode + 1 }) := by
  obtain ⟨mnt, root, hnearest, hname, hroot, hget⟩ := hsel.selects
  have hshort := h.short e he
  have hchars : ∀ c ∈ SLASH :: e.path, c ≠ 0 := by
    refine List.forall_mem_cons.mpr ⟨by decide, ?_⟩
    rw [(h.scan.mem e he).1]
    exact (headerPath_cstr w.disk.archive e.hdr w.disk.stack).ne_zero
  have hpath : CStr (memOf 0 (SLASH :: e.path ++ [0])) 0 (SLASH :: e.path) :=
    memOf_terminated 0 hchars
  obtain ⟨root', hget', hstands⟩ :=
    initrdGetRoot_stands w.disk.initrd w.disk.archive w.disk.stack w.disk.heap es
  obtain rfl : root' = root := Option.some.inj (hget'.symm.trans hget)
  obtain ⟨rest, r, hsplit, hresolve, hrel⟩ := Vfs.vfsResolve_nearest (disk_follows h.readable) hpath
    (Nat.lt_of_le_of_lt (Nat.succ_le_succ hshort) (by decide)) hsel.mounted hnearest hroot
    ⟨root', rfl, hstands⟩ w.disk.stack
  obtain rfl : e.path = rest := by
    rw [hname] at hsplit
    exact List.tail_eq_of_cons_eq hsplit
  rw [dirStep_walk h hclean hclean hshort (List.cons_ne_nil _ _).symm rfl,
    if_pos ⟨e, he, rfl⟩] at hrel
  cases hrel with
  | @some v _ hv =>
    obtain ⟨node, rfl, hnode⟩ := hv
    have hcovered : covered w.disk.nodes (.initrd node) = .initrd node := by
      have hnone : w.disk.nodes.mountedHere (.initrd node) = none := rfl
      rw [covered, hnone, Option.getD_none, ite_self]
    refine ⟨node, hnode, ?_⟩
    rw [fsResolve, hresolve, Option.map_some, hcovered]

/-- A `vfs_open` that succeeds leaves the new `file_t` in the table. -/
theorem openFile_ok {W : Type} {s : VfsState W} {node file : Ptr} {flags : Int}
    (h : 0 ≤ (openFile s node flags file).1) :
    getFile (openFile s node flags file).2 (openFile s node flags file).1 = file ∧ file ≠ 0 ∧
      (openFile s node flags file).2.files file = ⟨node, 0, flags, 1⟩ ∧
      (openFile s node flags file).2.world = s.world := by
  have hneg : ¬ (0 : Int) ≤ -1 := by decide
  rw [openFile] at h ⊢
  by_cases hne : file = 0
  · rw [if_pos hne] at h
    exact absurd h hneg
  · rw [if_neg hne] at h ⊢
    generalize hs1 : ({ s with
      live := Function.update s.live file true
      files := Function.update s.files file ⟨node, 0, flags, 1⟩ } : VfsState W) = s1 at h ⊢
    have hfile : s1.files file = ⟨node, 0, flags, 1⟩ := by
      rw [← hs1]
      exact Function.update_self ..
    have hworld : s1.world = s.world := by rw [← hs1]
    dsimp only at h ⊢
    rcases Vfs.allocFd_spec s1 file with hfull | ⟨k, hk, -, -, heq⟩
    · have hlt : (-1 : Int) < 0 := by decide
      rw [hfull, if_pos hlt] at h
      exact absurd h hneg
    · have hpos : ¬ (k : Int) < 0 := by omega
      rw [heq, if_neg hpos]
      have hcurr : (setActive s1 k file).currProcess = s1.currProcess := by
        rw [setActive]
        split <;> rfl
      refine ⟨?_, hne, ?_, ?_⟩
      · rw [getFile_eq, hcurr, Vfs.fileAt_setActive s1 hk, if_pos ⟨rfl, rfl⟩]
      · rw [(Vfs.setActive_files s1 k file).1]
        exact hfile
      · rw [← hworld, setActive]
        split <;> rfl

/-- **Opening.** -/
theorem vfsOpen_opens (deviceOps : DevfsEntry → VnodeOps FsWorld) {s : VfsState FsWorld}
    {es : List Found} {e : Found} (flags : Int) (file : Ptr)
    (h : WellFormed s.world.disk.initrd s.world.disk.archive es) (he : e ∈ es)
    (hregular : e.file.typeflag ≠ DIRTYPE) (hsmall : e.file.size < 2 ^ 31)
    (hclean : Clean SLASH e.path) (hsel : SelectsInitrd s.world (SLASH :: e.path))
    (hfd : 0 ≤ (vfsOpen (fsDrivers deviceOps) s (SLASH :: e.path) flags file).1) :
    OpenAt (vfsOpen (fsDrivers deviceOps) s (SLASH :: e.path) flags file).2
        (vfsOpen (fsDrivers deviceOps) s (SLASH :: e.path) flags file).1 es e 0 ∧
      (vfsOpen (fsDrivers deviceOps) s (SLASH :: e.path) flags file).2.world.disk =
        s.world.disk := by
  obtain ⟨node, hnode, hresolve⟩ := fsResolve_entry h he hclean hsel
  have hkind := hnode.kind
  rw [if_neg fun hdir => hregular ((h.readable.isDir_iff he).mp hdir)] at hkind
  generalize hw : ({ s.world with
      vnode := Function.update s.world.vnode s.world.nextVnode (.initrd node)
      nextVnode := s.world.nextVnode + 1 } : FsWorld) = w at hresolve
  have hvnode : w.vnode s.world.nextVnode = .initrd node := by
    rw [← hw]
    exact Function.update_self ..
  have hdisk : w.disk = s.world.disk := by rw [← hw]
  have hnoOpen : callOpen (fsDrivers deviceOps) w s.world.nextVnode flags = (0, w) := by
    have hops : (fsDrivers deviceOps).ops w s.world.nextVnode =
        some (fsOps deviceOps (w.vnode s.world.nextVnode)) := rfl
    rw [callOpen, hops, hvnode, fsOps_file hkind.2, Option.bind_some]
  have hopen : vfsOpen (fsDrivers deviceOps) s (SLASH :: e.path) flags file =
      openFile { s with world := w } s.world.nextVnode flags file := by
    have hcall : (fsDrivers deviceOps).vfsResolve s.world (SLASH :: e.path) =
        (some s.world.nextVnode, w) := hresolve
    rw [Vfs.vfsOpen, hcall]
    dsimp only
    rw [hnoOpen]
    exact if_neg (show ¬ (0 : Int) < 0 by decide)
  rw [hopen] at hfd ⊢
  obtain ⟨hget, hne, hfile, hworld⟩ := openFile_ok hfd
  rw [hworld]
  refine ⟨⟨?_, he, hregular, hsmall, ?_, ⟨node, ?_, hnode⟩, ?_⟩, hdisk⟩
  · rw [hworld]
    exact hdisk ▸ h.readable
  · rw [hget]
    exact hne
  · rw [hget, hfile, hworld]
    exact hvnode
  · rw [hget, hfile]

/-- **Streams.**  A file of the initrd that has been opened is read in order, whatever the
lengths of the reads. -/
theorem reads_deliver (deviceOps : DevfsEntry → VnodeOps FsWorld) {s s₀ : VfsState FsWorld}
    {es : List Found} {e : Found} {flags fd : Int} {file : Ptr}
    (h : WellFormed s.world.disk.initrd s.world.disk.archive es) (he : e ∈ es)
    (hregular : e.file.typeflag ≠ DIRTYPE) (hsmall : e.file.size < 2 ^ 31)
    (hclean : Clean SLASH e.path) (hsel : SelectsInitrd s.world (SLASH :: e.path))
    (hopen : vfsOpen (fsDrivers deviceOps) s (SLASH :: e.path) flags file = (fd, s₀))
    (hfd : 0 ≤ fd) (calls : List (Nat × Nat)) :
    Delivers (fsDrivers deviceOps) fd s₀
      (bytesFrom s.world.disk.archive e.file.data e.file.size) calls := by
  have hopens := vfsOpen_opens deviceOps flags file h he hregular hsmall hclean hsel
  rw [hopen] at hopens
  obtain ⟨hat, hdisk⟩ := hopens hfd
  have hdelivers := hat.delivers deviceOps calls
  rwa [hdisk] at hdelivers

/-- The archive of `treeEntries`, mounted at `/`. -/
def treeDisk : Disk :=
  ⟨initrdOf (archive treeEntries 2), memOf 0x1000 (archive treeEntries 2), fun _ => 0, fun _ => 0, []⟩

/-- The vnode of its root. -/
def treeRoot : Initrd.Vnode :=
  ⟨VFS_DIRECTORY, 0, .initrdDirOps, none, write8 (strncpy (fun _ => 0) 0 (fun _ => 0) 0 255) 255 0⟩

def treeState : VfsState FsWorld where
  kernelFdTable _ := 0
  fds _ _ := 0
  currProcess := 0
  files _ := ⟨0, 0, 0, 0⟩
  live _ := false
  world := ⟨treeDisk, [⟨memOf 0 [SLASH, 0], some (.initrd treeRoot)⟩], fun _ => .devfsRoot, 1,
    fun _ => 0, false⟩

/-- `/d/f` -/
def treePath : List Char8 := [SLASH, 0x64, SLASH, 0x66]

/-- Two reads of a file of three bytes, the second beyond its end. -/
theorem tree_reads : ∃ (es : List Found) (e : Found), e ∈ es ∧ SLASH :: e.path = treePath ∧
    e.file.size = 3 ∧ Delivers (fsDrivers fun _ => {}) 0
      (vfsOpen (fsDrivers fun _ => {}) treeState treePath 0 100).2
      (bytesFrom treeDisk.archive e.file.data e.file.size) [(0x8000, 2), (0x8000, 5)] := by
  obtain ⟨es, hes⟩ := treeEntries_wellFormed
  have hpath : CStr (memOf 0 [0x64, SLASH, 0x66, 0]) 0 [0x64, SLASH, 0x66] :=
    memOf_terminated 0 (s := [0x64, SLASH, 0x66]) (by decide)
  have hlookup := hes.readable.lookup (fun _ => 0) hpath
  have hfound : initrdLookup treeDisk.initrd treeDisk.archive (fun _ => 0)
      (memOf 0 [0x64, SLASH, 0x66, 0]) 0 = some ⟨0x1200, 0x1400, 3, 0x30⟩ := by
    decide +kernel
  obtain ⟨e, he, hname, hfile⟩ : ∃ e : Found, e ∈ es ∧ e.path = [0x64, SLASH, 0x66] ∧
      e.file = ⟨0x1200, 0x1400, 3, 0x30⟩ := by
    have hsame := Option.some.inj (hlookup.symm.trans hfound)
    rcases lookupIn_cases es [0x64, SLASH, 0x66] with ⟨hnone, -⟩ | ⟨e, he, hname, hlook⟩
    · rw [hnone] at hsame
      exact absurd hsame (by decide)
    · exact ⟨e, he, hname, hlook.symm.trans hsame⟩
  have hwhole : SLASH :: e.path = treePath := by rw [hname]; rfl
  have hmount : ∀ mnt ∈ treeState.world.mounts, Mounted mnt := by
    intro mnt hmnt
    obtain rfl := List.mem_singleton.mp hmnt
    exact ⟨memOf_terminated 0 (s := [SLASH]) (by decide), ⟨⟨[], rfl⟩, Or.inl rfl⟩, rfl⟩
  refine ⟨es, e, he, hwhole, by rw [hfile], ?_⟩
  refine @reads_deliver (fun _ => {}) treeState _ es e 0 0 100 hes he
    (by rw [hfile]; decide) (by rw [hfile]; decide) (by rw [hname]; decide) ?_ ?_ (by decide) _
  · rw [hwhole]
    refine ⟨hmount, _, treeRoot, rfl, by decide, rfl, rfl⟩
  · rw [hwhole]
    refine Prod.ext (show _ = (0 : Int) from ?_) rfl
    decide +kernel

end FrogKernel.FileCalls
