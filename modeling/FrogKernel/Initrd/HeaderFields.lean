import FrogKernel.Lib.StringAccesses
import FrogKernel.Initrd.Archive

/-!
# The fields of a header (`initrd/initrd.c`, `initrd/initrdfs.c`)

`headerPathTraced` puts the path of a header together, as the three scans do it, with
the bytes of the two fields that it reads and the elements of `fullpath` that it
writes.  Neither field needs a NUL when it is full.

Main result: `header_accesses_iff`.
-/

namespace FrogKernel.Initrd

open FrogKernel.Bytes FrogKernel.CStrings FrogKernel.Traces FrogKernel.StringAccesses

/-- A byte read as one of `hdr->name` or of `hdr->prefix`, or an element of `fullpath`
written. -/
inductive Access where
  | name (x : Nat)
  | pre (x : Nat)
  | fullpath (i : Nat)
  deriving DecidableEq

/-- The access stays in its field, or in the array. -/
def InField (hdr : Nat) : Access → Prop
  | .name x => hdr + NAME ≤ x ∧ x < hdr + NAME + 100
  | .pre x => hdr + PREFIX ≤ x ∧ x < hdr + PREFIX + 155
  | .fullpath i => i < 256

abbrev Building (α : Type) := Traced Empty Access α

def cutSlashTraced (fullpath : Mem) (n : Nat) : Building Mem :=
  if n > 1 ∧ fullpath (n - 1) = SLASH then writeByte .fullpath fullpath (n - 1) 0
  else pure fullpath

def headerPathTraced (m : Mem) (hdr : Nat) (fullpath : Mem) : Building Mem := do
  let first ← readByte .pre m (hdr + PREFIX)
  if first ≠ 0 then do
    let plen ← strnlenTraced .pre m (hdr + PREFIX) 155
    let nlen ← strnlenTraced .name m (hdr + NAME) 100
    let fullpath ← copyTraced .pre .fullpath fullpath 0 m (hdr + PREFIX) plen
    let fullpath ← writeByte .fullpath fullpath plen SLASH.toNat
    let fullpath ← copyTraced .name .fullpath fullpath (plen + 1) m (hdr + NAME) nlen
    let fullpath ← writeByte .fullpath fullpath (plen + 1 + nlen) 0
    cutSlashTraced fullpath (plen + 1 + nlen)
  else do
    let fullpath ← strncpyTraced .name .fullpath fullpath 0 m (hdr + NAME) 255
    let fullpath ← writeByte .fullpath fullpath 255 0
    cutSlashTraced fullpath (strnlen fullpath 0 255)

theorem cutSlashTraced_result (fullpath : Mem) (n : Nat) :
    (cutSlashTraced fullpath n).result = .ok (cutSlash fullpath n) := by
  rw [cutSlashTraced, cutSlash, result_ite, writeByte_result, result_pure]
  split <;> rfl

/-- It comes to the same. -/
theorem headerPathTraced_result (m : Mem) (hdr : Nat) (fullpath : Mem) :
    (headerPathTraced m hdr fullpath).result = .ok (headerPath m hdr fullpath) := by
  rw [headerPathTraced, headerPath, result_bind_ok (readByte_result _ _), result_ite]
  by_cases hpre : m (hdr + PREFIX) ≠ 0
  · rw [if_pos hpre, if_pos hpre, result_bind_ok (strnlenTraced_result _ _ _),
      result_bind_ok (strnlenTraced_result _ _ _), result_bind_ok (copyTraced_result _ _ _ _ _),
      result_bind_ok (writeByte_result _ _ _), result_bind_ok (copyTraced_result _ _ _ _ _),
      result_bind_ok (writeByte_result _ _ _), cutSlashTraced_result]
  · rw [if_neg hpre, if_neg hpre, result_bind_ok (strncpyTraced_result _ _ _ _ _),
      result_bind_ok (writeByte_result _ _ _), cutSlashTraced_result]

/-- The path that the fields hold has room in `fullpath` and ends in its field. -/
def FieldsFit (m : Mem) (hdr : Nat) : Prop :=
  if m (hdr + PREFIX) ≠ 0 then
    strnlen m (hdr + PREFIX) 155 + strnlen m (hdr + NAME) 100 < 255
  else strnlen m (hdr + NAME) 100 < 100

/-- The slash that is cut lies before the end. -/
theorem cutSlash_inside {fullpath : Mem} {n : Nat} (hdr : Nat) (hn : n ≤ 256) :
    ∀ w ∈ (cutSlashTraced fullpath n).trace, InField hdr w := by
  rw [cutSlashTraced]
  split
  case isTrue hcut =>
    rw [forall_mem_writeByte]
    exact show n - 1 < 256 by omega
  case isFalse => exact List.forall_mem_nil _

/-- `strnlen` and the field it is called for. -/
theorem strnlen_pre_inside (m : Mem) (hdr : Nat) :
    ∀ w ∈ (strnlenTraced .pre m (hdr + PREFIX) 155 : Building Nat).trace, InField hdr w := by
  rw [forall_mem_strnlen]
  exact fun i hi _ => ⟨Nat.le_add_right _ _, Nat.add_lt_add_left hi _⟩

theorem strnlen_name_inside (m : Mem) (hdr : Nat) :
    ∀ w ∈ (strnlenTraced .name m (hdr + NAME) 100 : Building Nat).trace, InField hdr w := by
  rw [forall_mem_strnlen]
  exact fun i hi _ => ⟨Nat.le_add_right _ _, Nat.add_lt_add_left hi _⟩

theorem copy_pre_inside (m : Mem) (hdr : Nat) (fullpath : Mem) {plen : Nat} (hplen : plen ≤ 155) :
    ∀ w ∈ (copyTraced .pre .fullpath fullpath 0 m (hdr + PREFIX) plen : Building Mem).trace,
      InField hdr w := by
  rw [forall_mem_copy]
  intro i hi
  exact ⟨⟨Nat.le_add_right _ _, by omega⟩, show 0 + i < 256 by omega⟩

theorem copy_name_inside (m : Mem) (hdr : Nat) (fullpath : Mem) {plen nlen : Nat}
    (hplen : plen ≤ 155) (hnlen : nlen ≤ 100) :
    ∀ w ∈ (copyTraced .name .fullpath fullpath (plen + 1) m (hdr + NAME) nlen :
      Building Mem).trace, InField hdr w := by
  rw [forall_mem_copy]
  intro i hi
  exact ⟨⟨Nat.le_add_right _ _, by omega⟩, show plen + 1 + i < 256 by omega⟩

/-- A name that ends within its field is read from the field alone. -/
theorem strncpy_name_inside (m : Mem) (hdr : Nat) (fullpath : Mem) :
    (∀ w ∈ (strncpyTraced .name .fullpath fullpath 0 m (hdr + NAME) 255 : Building Mem).trace,
      InField hdr w) ↔ strnlen m (hdr + NAME) 100 < 100 := by
  rw [forall_mem_strncpy, strnlen_min m (n := 255) (hdr + NAME) (show 100 ≤ 255 by decide)]
  have hwrites : ∀ i < 255, InField hdr (.fullpath (0 + i)) :=
    fun i hi => show 0 + i < 256 by omega
  rw [and_iff_left hwrites]
  constructor
  · intro h
    by_contra hfull
    have hread := (h 100 (by decide) (by omega)).2
    omega
  · exact fun hend i _ hi => ⟨Nat.le_add_right _ _, by omega⟩

/-- **Accesses.**  They stay in the fields and in the array exactly when the name and
the prefix do not fill both of their fields and a name without prefix ends in its field. -/
theorem header_accesses_iff (m : Mem) (hdr : Nat) (stack : Mem) :
    (∀ w ∈ (headerPathTraced m hdr stack).trace, InField hdr w) ↔ FieldsFit m hdr := by
  have hplen := strnlen_le m (hdr + PREFIX) 155
  have hnlen := strnlen_le m (hdr + NAME) 100
  have hfirst : InField hdr (.pre (hdr + PREFIX)) :=
    ⟨Nat.le_refl _, Nat.lt_add_of_pos_right (by decide)⟩
  rw [headerPathTraced, FieldsFit, forall_mem_bind_ok (readByte_result _ _), forall_mem_readByte,
    and_iff_right hfirst]
  by_cases hpre : m (hdr + PREFIX) ≠ 0
  · rw [if_pos hpre, if_pos hpre, forall_mem_bind_ok (strnlenTraced_result _ _ _),
      and_iff_right (strnlen_pre_inside m hdr), forall_mem_bind_ok (strnlenTraced_result _ _ _),
      and_iff_right (strnlen_name_inside m hdr)]
    generalize strnlen m (hdr + PREFIX) 155 = plen at hplen ⊢
    generalize strnlen m (hdr + NAME) 100 = nlen at hnlen ⊢
    have hslash : InField hdr (.fullpath plen) := show plen < 256 by omega
    rw [forall_mem_bind_ok (copyTraced_result _ _ _ _ _),
      and_iff_right (copy_pre_inside m hdr _ hplen), forall_mem_bind_ok (writeByte_result _ _ _),
      forall_mem_writeByte, and_iff_right hslash,
      forall_mem_bind_ok (copyTraced_result _ _ _ _ _),
      and_iff_right (copy_name_inside m hdr _ hplen hnlen),
      forall_mem_bind_ok (writeByte_result _ _ _), forall_mem_writeByte,
      and_iff_left (cutSlash_inside hdr (by omega))]
    exact show plen + 1 + nlen < 256 ↔ _ by omega
  · rw [if_neg hpre, if_neg hpre, forall_mem_bind_ok (strncpyTraced_result _ _ _ _ _),
      strncpy_name_inside, forall_mem_bind_ok (writeByte_result _ _ _), forall_mem_writeByte]
    refine and_iff_left ⟨show 255 < 256 by decide, cutSlash_inside hdr ?_⟩
    exact Nat.le_trans (strnlen_le _ _ _) (by decide)

/-- Name and prefix at their full lengths: the NUL goes behind the array. -/
def fullFields : Mem := fun x =>
  if x < 100 then 0x61 else if x < 257 then 0 else if x < 345 then memOf 257 ustar x else 0x62

/-- A name that fills its field: the copy goes on with the mode behind it. -/
def fullName : Mem := fun x =>
  if x < 100 then 0x61 else if x < 257 then memOf 100 (octal 7 0o644) x else memOf 257 ustar x

theorem full_fields_outside :
    Access.fullpath 256 ∈ (headerPathTraced fullFields 0 (fun _ => 0)).trace ∧
      ¬ InField 0 (.fullpath 256) ∧
      Access.name 100 ∈ (headerPathTraced fullName 0 (fun _ => 0)).trace ∧
      ¬ InField 0 (.name 100) := by
  refine ⟨by decide +kernel, ?_, by decide +kernel, ?_⟩
  · exact show ¬ 256 < 256 by decide
  · exact fun h => absurd h.2 (by decide)

end FrogKernel.Initrd
