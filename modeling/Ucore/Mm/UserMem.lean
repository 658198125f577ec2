import Ucore.Libs.String
import Ucore.Mm.Vmm

/-!
# `Mm.UserMem` — `user_mem_check`, `copy_from_user`, `copy_to_user` and `copy_string` of `kern/mm/vmm.c`

A range of addresses that a process hands over is checked area by area before it is read or written. Without an `mm` the range
is one of the kernel. The loops take as many rounds as there are areas, or pages. The memory of the process is `mem`, by its
addresses; a buffer of the kernel goes from `0` on. What is written is returned.
-/

namespace Ucore

/-- `KERNBASE` and `KERNTOP`, and `KERN_ACCESS` -/
def kernBase : Nat := 0xFFFFFFFFC0200000
def kernTop : Nat := kernBase + 0x7E00000

def KernAccess (start stop : Nat) : Prop := kernBase ≤ start ∧ start < stop ∧ stop ≤ kernTop

instance (start stop : Nat) : Decidable (KernAccess start stop) := inferInstanceAs (Decidable (_ ∧ _ ∧ _))

/-- `vma->vm_flags & ((write) ? VM_WRITE : VM_READ)` -/
def VmFlags.allow (flags : VmFlags) (write : Bool) : Bool := if write = true then flags.write else flags.read

def userMemCheckFrom (m : Nat) (write : Bool) (stop : Nat) : Nat → Nat → VmM Bool
  | 0, _            => Proc.stop .loops
  | fuel + 1, start =>
    if start < stop then do
      let vma ← findVma m start
      match vma with
      | none     => pure false
      | some vma =>
        if start < vma.vmStart then pure false
        else if vma.vmFlags.allow write = false then pure false
        -- check stack start & size
        else if write = true ∧ vma.vmFlags.stack = true ∧ start < (vma.vmStart + pgsize) % 2 ^ 64 then pure false
        else userMemCheckFrom m write stop fuel vma.vmEnd
    else pure true

def userMemCheck (mm : Option Nat) (addr len : Nat) (write : Bool) : VmM Bool :=
  let stop := (addr + len) % 2 ^ 64
  match mm with
  | some m => do
    if ¬ UserAccess addr stop then pure false
    else do
      let s ← Proc.get
      userMemCheckFrom m write stop ((s.mm m).mmapList.length + 1) addr
  | none   => pure (decide (KernAccess addr stop))

def copyFromUser (mm : Option Nat) (mem dst : Bytes) (src len : Nat) (writable : Bool) : VmM (Bool × Bytes) := do
  let ok ← userMemCheck mm src len writable
  if ok = false then pure (false, dst) else pure (true, memcpy dst 0 mem src len)

def copyToUser (mm : Option Nat) (mem : Bytes) (dst : Nat) (src : Bytes) (len : Nat) : VmM (Bool × Bytes) := do
  let ok ← userMemCheck mm dst len true
  if ok = false then pure (false, mem) else pure (true, memcpy mem dst src 0 len)

/-- `copy_string` from a round of its loop on: `off` bytes of `dst` have been written, and `maxn` more may be. -/
def copyStringFrom (mm : Option Nat) (mem : Bytes) : Nat → Bytes → Nat → Nat → Nat → Nat → VmM (Bool × Bytes)
  | 0, _, _, _, _, _                      => Proc.stop .loops
  | fuel + 1, dst, off, src, maxn, part => do
    let part := if part > maxn then maxn else part
    let ok ← userMemCheck mm src part false
    if ok = false then pure (false, dst)
    else
      let alen := strnlen (fun i => mem (src + i)) part 0
      if alen < part then pure (true, memcpy dst off mem src (alen + 1))
      else if part = maxn then pure (false, dst)
      else copyStringFrom mm mem fuel (memcpy dst off mem src part) (off + part) (src + part) (maxn - part) pgsize

def copyString (mm : Option Nat) (mem dst : Bytes) (src maxn : Nat) : VmM (Bool × Bytes) :=
  copyStringFrom mm mem (maxn / pgsize + 2) dst 0 src maxn
    ((2 ^ 64 + rounddown ((src + pgsize) % 2 ^ 64) pgsize - src) % 2 ^ 64)

end Ucore
