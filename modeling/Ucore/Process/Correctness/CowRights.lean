import Ucore.Mm.Correctness.ProtectionFault
import Ucore.Process.Correctness.CowLoad

/-!
# `Process.Correctness.CowRights` — the rights of a page, from the first fork to the copy

Histories of address spaces: programs are loaded, processes fork, and write faults happen. A `History` remembers for every
page the rights that it had before it was shared for the first time, and whether it is shared now. The copy has the rights
that its area asks for when it is made, and `do_pgfault` does not ask for the right to execute.
-/

namespace Ucore

/-- Every right that the one has the other has too. -/
instance : LE Perm :=
  ⟨fun p q => (p.r = true → q.r = true) ∧ (p.w = true → q.w = true) ∧ (p.x = true → q.x = true) ∧ (p.u = true → q.u = true)⟩

theorem Perm.le_refl (p : Perm) : p ≤ p := ⟨id, id, id, id⟩

/-- Every right but that to write. -/
def Perm.noWrite (p : Perm) : Perm := { p with w := false }

theorem Perm.noWrite_le (p : Perm) : p.noWrite ≤ p := ⟨id, fun hw => Bool.noConfusion hw, id, id⟩

theorem Perm.noWrite_mono {p q : Perm} (h : p.noWrite ≤ q) : p.noWrite ≤ q.noWrite := ⟨h.1, id, h.2.2⟩

namespace Cow

open Ucore.PageMem

/-- The address spaces, with the rights of their pages before the first fork, and the pages between a fork and the fault. -/
structure History where
  vm : Vm
  procs : Finset Nat
  orig : Nat → Nat → Perm
  forked : Nat → Nat → Bool

variable {h h' : History} {s s' vm : Vm} {M : Finset Nat} {L : Nat → Prop} {m m' n dst src addr errorCode : Nat} {code : Int}
  {v : Vma} {flags : VmFlags} {o e : Perm} {f : Bool} {boot : Nat → Pte} {mem : PageMem} {pgdir la page : Nat} {ptep : Nat × Nat}
  {perm : Perm}

instance : Decidable (Fresh s s' m n) := inferInstanceAs (Decidable (_ ∧ _))

/-- A write fault at the address is a copy-on-write fault. -/
def CopyFault (s : Vm) (m addr : Nat) : Prop :=
  ∃ v ∈ (s.mm m).mmapList, v.Contains addr ∧ IsCow (s.pte m (addr / pgsize)) v.vmFlags

instance : Decidable (CopyFault s m addr) := inferInstanceAs (Decidable (∃ v ∈ _, _))

/-- No second page is needed for the copy, or there is one. -/
def CanCopy (s : Vm) (m addr : Nat) : Prop := s.mem.ref (s.pte m (addr / pgsize)).ppn ≤ 1 ∨ HasPage s.mem

namespace History

/-- Pages that have not been mapped before have the rights they are created with. -/
def created (h : History) (vm : Vm) : History where
  vm := vm
  procs := h.procs
  orig m n := if Fresh h.vm vm m n then (vm.pte m n).perm else h.orig m n
  forked m n := if Fresh h.vm vm m n then false else h.forked m n

/-- `dst` has got pages of `src`. -/
def shared (h : History) (dst src : Nat) (vm : Vm) : History where
  vm := vm
  procs := h.procs
  orig m n := if m = dst ∧ Fresh h.vm vm dst n then h.orig src n else h.orig m n
  forked m n := if (m = dst ∨ m = src) ∧ Fresh h.vm vm dst n then true else h.forked m n

/-- A page has been created, or it has its copy. -/
def faulted (h : History) (m addr : Nat) (code : Int) (vm : Vm) : History :=
  { h.created vm with
    forked := fun m' n =>
      if (m' = m ∧ n = addr / pgsize) ∧ code = 0 ∧ CopyFault h.vm m addr then false else (h.created vm).forked m' n }

end History

/-- Parts of `load_icode`, `dup_mmap` for a fork, and faults. -/
inductive Call where
  | create (boot : Nat → Pte)
  | segment (m : Nat) (binary : Bytes) (ph : ProgHdr)
  | stack (m : Nat)
  | fork (dst src : Nat)
  | fault (m errorCode addr : Nat)

/-- The processor does not let a process write there. -/
def WriteFault (s : Vm) (m addr : Nat) : Prop :=
  ¬ ((s.pte m (addr / pgsize)).v = true ∧ (s.pte m (addr / pgsize)).perm.w = true ∧ (s.pte m (addr / pgsize)).perm.u = true)

inductive Step : History → Call → History → Prop where
  | create {h : History} {boot : Nat → Pte} {m : Nat} {vm : Vm} (hboot : ∀ i < 2, (boot i).v = false)
      (hrun : mmNew boot h.vm = .ok m vm) : Step h (.create boot) { h.created vm with procs := insert m h.procs }
  | noCreate {h : History} {boot : Nat → Pte} {err : Int} {vm : Vm} (hboot : ∀ i < 2, (boot i).v = false)
      (hrun : mmNew boot h.vm = .err err vm) : Step h (.create boot) (h.created vm)
  | segment {h : History} {m : Nat} {binary : Bytes} {ph : ProgHdr} {vm : Vm} (hm : m ∈ h.procs)
      (hrun : (loadSegment binary m ph h.vm).EndsIn vm) : Step h (.segment m binary ph) (h.created vm)
  | stack {h : History} {m : Nat} {vm : Vm} (hm : m ∈ h.procs) (hrun : (loadStack m h.vm).EndsIn vm) :
      Step h (.stack m) (h.created vm)
  | fork {h : History} {dst src : Nat} {vm : Vm} (hdst : dst ∈ h.procs) (hsrc : src ∈ h.procs) (hne : dst ≠ src)
      (hrun : (dupMmap dst src h.vm).EndsIn vm) : Step h (.fork dst src) (h.shared dst src vm)
  | fault {h : History} {m errorCode addr : Nat} {code : Int} {vm : Vm} (hm : m ∈ h.procs) (hwrite : WriteFault h.vm m addr)
      (hrun : doPgfault m errorCode addr h.vm = .ok code vm) : Step h (.fault m errorCode addr) (h.faulted m addr code vm)

/-- No address space, and no page is referenced. -/
def Start (h : History) : Prop := h.procs = ∅ ∧ ∀ p, h.vm.mem.ref p = 0

/-- **The rights are kept**: all of them before the first fork and after the fault, all but one in between. -/
def RightsKept (h : History) : Prop := ∀ m ∈ h.procs, ∀ n, n < userPages → (h.vm.pte m n).v = true →
  if h.forked m n = true then (h.vm.pte m n).perm.w = false ∧ (h.orig m n).noWrite ≤ (h.vm.pte m n).perm
  else h.orig m n ≤ (h.vm.pte m n).perm

/-- No copy is made of a page with the right to execute, and the loader stays inside of its areas. -/
def KeepsExec (h : History) : Call → Prop
  | .segment _ _ ph => FileFits ph
  | .fault m _ addr => ¬ (CopyFault h.vm m addr ∧ CanCopy h.vm m addr ∧ (h.vm.pte m (addr / pgsize)).perm.x = true)
  | _               => True

/-! ## The invariant -/

/-- **A page** in an area with these flags: `o` are its rights before the first fork, `f` whether it is forked, `e` its
rights now. -/
structure PageOk (flags : VmFlags) (o : Perm) (f : Bool) (e : Perm) : Prop where
  created : Created flags o
  exec : e.x = true → o.x = true
  forked : f = true → e.w = false ∧ o.noWrite ≤ e
  whole : f = false → o ≤ e

namespace PageOk

theorem new (hc : Created flags o) : PageOk flags o false o := ⟨hc, id, fun hf => Bool.noConfusion hf, fun _ => o.le_refl⟩

/-- Whether it is forked or not. -/
theorem noWrite_le (hp : PageOk flags o f e) : o.noWrite ≤ e := by
  cases hf : f with
  | true => exact (hp.forked hf).2
  | false =>
    obtain ⟨hr, -, hx, hu⟩ := hp.whole hf
    exact ⟨hr, fun hw => Bool.noConfusion hw, hx, hu⟩

theorem user (hp : PageOk flags o f e) : e.u = true := hp.noWrite_le.2.2.2 hp.created.1

/-- A fork takes the right to write. -/
theorem share (hp : PageOk flags o f e) : PageOk flags o true e.noWrite :=
  ⟨hp.created, hp.exec, fun _ => ⟨rfl, Perm.noWrite_mono hp.noWrite_le⟩, fun hf => Bool.noConfusion hf⟩

/-- A copy of a page without the right to execute. -/
theorem copy (hp : PageOk flags o f e) (hw : flags.write = true) (hx : ¬ e.x = true) : PageOk flags o false (cowPerm flags) where
  created := hp.created
  exec hcon := Bool.noConfusion hcon
  forked hf := Bool.noConfusion hf
  whole _ := ⟨fun _ => hw, fun _ => hw, fun hox => absurd (hp.noWrite_le.2.2.1 hox) hx, fun _ => rfl⟩

/-- A page that is not for writing is replaced by one with the same rights. -/
theorem replace (hp : PageOk flags o f e) (hw : flags.write = false) : PageOk flags o f (missingPerm flags) := by
  obtain rfl : o = missingPerm flags := hp.created.2 hw
  exact ⟨hp.created, id, fun _ => ⟨hw, Perm.noWrite_le _⟩, fun _ => Perm.le_refl _⟩

end PageOk

/-- The page belongs to an area. -/
def History.PageAt (h : History) (m n : Nat) : Prop :=
  ∃ v ∈ (h.vm.mm m).mmapList, v.Has n ∧ PageOk v.vmFlags (h.orig m n) (h.forked m n) (h.vm.pte m n).perm

/-- **The invariant.** -/
structure History.Inv (h : History) : Prop where
  inv : h.vm.Inv h.procs fun _ => False
  pages : ∀ m ∈ h.procs, ∀ n, n < userPages → (h.vm.pte m n).v = true → h.PageAt m n

theorem History.Inv.rightsKept (hi : h.Inv) : RightsKept h := by
  intro m hm n hn hv
  obtain ⟨v, -, -, hp⟩ := hi.pages m hm n hn hv
  split
  · next hf => exact hp.forked hf
  · next hf => exact hp.whole (Bool.eq_false_iff.mpr hf)

/-! ## Loading -/

/-- What is new has the rights that it is created with. -/
theorem History.Inv.pages_created (hi : h.Inv) (hw : Vm.Wider h.procs h.vm vm)
    (hpages : ∀ m ∈ h.procs, ∀ n, n < userPages → vm.pte m n = h.vm.pte m n ∨ ¬ (h.vm.pte m n).v = true ∧
      ∃ v ∈ (vm.mm m).mmapList, v.Has n ∧ ∃ p perm, vm.pte m n = pteCreate p perm ∧ Created v.vmFlags perm) :
    ∀ m ∈ h.procs, ∀ n, n < userPages → (vm.pte m n).v = true → (h.created vm).PageAt m n := by
  intro m hm n hn hv
  rcases hpages m hm n hn with hold | ⟨hnew, v, hmem, hhas, p, perm, hpte, hc⟩
  · have hfresh : ¬ Fresh h.vm vm m n := fun hf => hf.1 (hold ▸ hv)
    obtain ⟨v, hmem, hhas, hp⟩ := hi.pages m hm n hn (hold ▸ hv)
    refine ⟨v, hw.areas m hm v hmem, hhas, ?_⟩
    simp only [created, if_neg hfresh, hold]
    exact hp
  · have hfresh : Fresh h.vm vm m n := ⟨hnew, hv⟩
    refine ⟨v, hmem, hhas, ?_⟩
    simp only [created, if_pos hfresh, hpte]
    exact .new hc

theorem History.Inv.loaded (hi : h.Inv) (hl : Loaded h.procs (fun _ => False) m h.vm vm) : (h.created vm).Inv := by
  refine ⟨hl.inv, hi.pages_created hl.wider fun m' hm' n hn => ?_⟩
  rcases hl.pages m' hm' n hn with hold | ⟨rfl, hpage⟩
  · exact .inl hold
  · exact .inr hpage

/-- `mm_create` and `setup_pgdir` map no page. -/
theorem mmNew_pages (hi : s.Inv M L) (hboot : ∀ i < 2, (boot i).v = false) :
    (mmNew boot s).Meets
      (fun m s' => (∀ n, n < userPages → ¬ (s'.pte m n).v = true) ∧ Vm.Wider M s s' ∧
        ∀ m' ∈ M, ∀ n, n < userPages → s'.pte m' n = s.pte m' n)
      (fun _ s' => Vm.Wider M s s' ∧ ∀ m' ∈ M, ∀ n, n < userPages → s'.pte m' n = s.pte m' n) fun _ => False := by
  have hne : ∀ m, m ∉ s.live → ∀ m' ∈ M, m' ≠ m := by
    rintro m hm m' hm' rfl
    exact hm (hi.live m' hm')
  rcases mmNew_cases boot s with ⟨-, hrun | ⟨m, hm, hrun⟩⟩ | ⟨-, m, p, hm, hp, hrun⟩
  · rw [hrun]
    exact ⟨⟨fun _ _ => rfl, fun _ _ _ hv => hv⟩, fun _ _ _ _ => rfl⟩
  · rw [hrun]
    have hold : ∀ m' ∈ M, ((((s.ktake m).setMm m .empty).setMem s.mem.tick).kgive m).mm m' = s.mm m' :=
      fun m' hm' => Function.update_of_ne (hne m hm m' hm') _ _
    refine ⟨⟨fun m' hm' => by rw [hold m' hm'], fun m' hm' v hv => by rw [hold m' hm']; exact hv⟩, fun m' hm' n _ => ?_⟩
    rw [Vm.pte, hold m' hm']
    rfl
  · rw [hrun]
    generalize hs' : (((s.ktake m).setMm m .empty).setMem ((s.mem.take p).setTable p boot)).setMm m
      { Mm.empty with pgdir := p } = s'
    have hmem : s'.mem = (s.mem.take p).setTable p boot := by
      rw [← hs']
      rfl
    have hmm : s'.mm = Function.update s.mm m { Mm.empty with pgdir := p } := by
      rw [← hs']
      exact Function.update_idem ..
    have hold : ∀ m' ∈ M, s'.mm m' = s.mm m' := by
      intro m' hm'
      rw [hmm, Function.update_of_ne (hne m hm m' hm')]
    refine ⟨fun n hn hv => ?_, ⟨fun m' hm' => by rw [hold m' hm'], fun m' hm' v hv => by rw [hold m' hm']; exact hv⟩, ?_⟩
    · have hnone := setup_maps_new (s := s.mem) (p := p) hboot hn
      rw [Vm.pte, hmem, hmm, Function.update_self] at hv
      rw [maps_eq_some.mpr ⟨hv, rfl⟩] at hnone
      cases hnone
    · intro m' hm' n hn
      rw [Vm.pte, hold m' hm', hmem]
      exact setup_leaf_old hi.sound hp (Vm.mem_dirs hm') hn

/-! ## Forks -/

theorem History.Inv.forked (hi : h.Inv) (hdst : dst ∈ h.procs) (hsrc : src ∈ h.procs) (hne : dst ≠ src)
    (hf : Forked h.procs (fun _ => False) dst src h.vm vm) : (h.shared dst src vm).Inv := by
  refine ⟨hf.inv, fun m hm n hn hv => ?_⟩
  have hvm : (h.shared dst src vm).vm = vm := rfl
  by_cases hpage : (m = dst ∨ m = src) ∧ Fresh h.vm vm dst n
  · obtain ⟨hdir, hfresh⟩ := hpage
    obtain ⟨hvalid, hd, hs, v, hmem, hhas, v', hmem', hhas', hflags⟩ := hf.shared n hn hfresh
    -- the page of `src` lies in the area that has been copied
    obtain ⟨w, hw, hwhas, hp⟩ := hi.pages src hsrc n hn hvalid
    obtain rfl : w = v := (hi.inv.wf src hsrc).toSorted.unique hw hmem hwhas hhas
    have hforked : (h.shared dst src vm).forked m n = true := if_pos ⟨hdir, hfresh⟩
    by_cases hto : m = dst
    · subst hto
      have horig : (h.shared m src vm).orig m n = h.orig src n := if_pos ⟨rfl, hfresh⟩
      refine ⟨v', hmem', hhas', ?_⟩
      rw [hforked, horig, hvm, hd, hflags]
      exact hp.share
    · obtain rfl : m = src := hdir.resolve_left hto
      have horig : (h.shared dst m vm).orig m n = h.orig m n := if_neg fun hcon => hto hcon.1
      refine ⟨w, hf.wider.areas m hm w hw, hhas, ?_⟩
      rw [hforked, horig, hvm, hs]
      exact hp.share
  · have hsame := hf.same m hm n hn hpage
    have hforked : (h.shared dst src vm).forked m n = h.forked m n := if_neg hpage
    have horig : (h.shared dst src vm).orig m n = h.orig m n := if_neg fun hcon => hpage ⟨.inl hcon.1, hcon.2⟩
    rw [hvm, hsame] at hv
    obtain ⟨v, hmem, hhas, hp⟩ := hi.pages m hm n hn hv
    refine ⟨v, hf.wider.areas m hm v hmem, hhas, ?_⟩
    rw [hforked, horig, hvm, hsame]
    exact hp

/-! ## Faults -/

/-- An area that contains the address is the one that `find_vma` finds. -/
theorem found_area (hi : s.Inv M L) (hm : m ∈ M) (hv : v ∈ (s.mm m).mmapList) (hin : v.Contains addr) :
    (s.mm m).findVma addr = some v := by
  have hwf := hi.wf m hm
  cases hfind : (s.mm m).findVma addr with
  | none => exact absurd hin (Mm.find_none hfind hv)
  | some w =>
    obtain ⟨hw, hwin⟩ := hwf.toSorted.find_some hfind
    rw [hwf.toSorted.unique hw hv ((hwf.ok w hw).has hwin) ((hwf.ok v hv).has hin)]

/-- The area of a copy-on-write fault is this one. -/
theorem copyFault_iff (hi : s.Inv M L) (hm : m ∈ M) (hv : v ∈ (s.mm m).mmapList) (hin : v.Contains addr) :
    CopyFault s m addr ↔ IsCow (s.pte m (addr / pgsize)) v.vmFlags := by
  constructor
  · rintro ⟨w, hw, hwin, hcow⟩
    have hsame := (found_area hi hm hw hwin).symm.trans (found_area hi hm hv hin)
    obtain rfl := Option.some.inj hsame
    exact hcow
  · exact fun hcow => ⟨v, hv, hin, hcow⟩

theorem cowFault_fails (hshared : mem.ref page > 1) (hno : ¬ HasPage mem) :
    cowFault pgdir la page perm mem = .ok (-eInval) mem.tick := by
  have hnone : allocPage mem = .ok none mem.tick := allocPage_none fun p hpick hp => hno ⟨p, hpick, hp⟩
  rw [cowFault, Proc.get_bind, if_pos hshared, Proc.bind_ok hnone]
  rfl

/-- `page_insert` succeeds where there is a page table. -/
theorem pageInsert_again (mem' : PageMem) (hpte : getPte pgdir la false mem = .ok (some ptep) mem) (htable : mem'.table = mem.table)
    (page : Nat) (perm : Perm) : ∃ mem'', pageInsert pgdir page la perm mem' = .ok () mem'' := by
  rw [pageInsert, Proc.bind_ok (getPte_again hpte htable)]
  exact ⟨_, pageInsertAt_run ..⟩

theorem cowFault_succeeds (hpte : getPte pgdir la false mem = .ok (some ptep) mem) (h : mem.ref page ≤ 1 ∨ HasPage mem)
    (perm : Perm) : ∃ mem', cowFault pgdir la page perm mem = .ok 0 mem' := by
  rw [cowFault, Proc.get_bind]
  by_cases hshared : mem.ref page > 1
  · obtain ⟨p, hpick, hp⟩ := h.resolve_left (Int.not_le.mpr hshared)
    rw [if_pos hshared, Proc.bind_ok (allocPage_some hpick hp)]
    dsimp only
    rw [Proc.modify_bind]
    obtain ⟨mem', hrun⟩ := pageInsert_again ((mem.take p).setData p
      (memcpy ((mem.take p).data p) 0 ((mem.take p).data page) 0 pgsize)) hpte rfl p perm
    rw [Proc.bind_ok (Proc.attempt_ok hrun)]
    exact ⟨mem', rfl⟩
  · obtain ⟨mem', hrun⟩ := pageInsert_again mem hpte rfl page perm
    rw [if_neg hshared, Proc.bind_ok (Proc.attempt_ok hrun)]
    exact ⟨mem', rfl⟩

/-- **A copy-on-write fault** is resolved exactly if the copy can be made. -/
theorem doPgfault_copy (hi : s.Inv M L) (hm : m ∈ M) (hcopy : CopyFault s m addr) (hrun : doPgfault m errorCode addr s = .ok code vm) :
    code = 0 ↔ CanCopy s m addr := by
  obtain ⟨v, hv, hin, hcow⟩ := hcopy
  have hlt : rounddown addr pgsize < userTop :=
    Nat.lt_of_le_of_lt (Nat.sub_le _ _) (((hi.wf m hm).ok v hv).lt_userTop hin)
  have hdown : rounddown addr pgsize / pgsize = addr / pgsize := by
    show (addr - addr % 2 ^ 12) / 2 ^ 12 = addr / 2 ^ 12
    omega
  rw [doPgfault_some (found_area hi hm hv hin)] at hrun
  obtain ⟨mem, hfault, -⟩ := inMem_eq_ok.mp hrun
  have hmem : (s.setMm m ((s.mm m).found addr)).mem = s.mem := rfl
  have hget := getPte_false s.mem (s.mm m).pgdir hlt
  rw [hdown] at hget
  cases htab : s.mem.tab (s.mm m).pgdir (ptSlot (addr / pgsize)) with
  | none =>
    rw [Vm.pte, leaf_of_none htab] at hcow
    exact Bool.noConfusion hcow.1
  | some t =>
    rw [htab] at hget
    rw [Vm.pte, leaf_of_tab htab] at hcow
    rw [hmem, faultIn] at hfault
    dsimp only at hfault
    rw [Proc.bind_ok hget] at hfault
    dsimp only [Option.map_some] at hfault
    rw [Proc.get_bind, if_pos hcow, ← leaf_of_tab htab] at hfault
    rw [CanCopy, Vm.pte]
    constructor
    · intro hcode
      by_contra hno
      rw [cowFault_fails (Int.not_le.mp fun hle => hno (.inl hle)) fun hpage => hno (.inr hpage)] at hfault
      cases hfault
      exact absurd hcode (by decide)
    · intro hcan
      obtain ⟨mem', hok⟩ := cowFault_succeeds hget hcan (cowPerm v.vmFlags)
      cases hok.symm.trans hfault
      rfl

/-- A page that keeps its entry, and has not got a copy. -/
theorem History.Inv.faulted_kept {m' : Nat} (hi : h.Inv) (hm' : m' ∈ h.procs) (hn : n < userPages)
    (hf : PageFault h.procs L m addr code h.vm vm) (hv : (vm.pte m' n).v = true) (hold : vm.pte m' n = h.vm.pte m' n)
    (hno : ¬ ((m' = m ∧ n = addr / pgsize) ∧ code = 0 ∧ CopyFault h.vm m addr)) : (h.faulted m addr code vm).PageAt m' n := by
  have hfresh : ¬ Fresh h.vm vm m' n := fun hcon => hcon.1 (hold ▸ hv)
  obtain ⟨v, hmem, hhas, hp⟩ := hi.pages m' hm' n hn (hold ▸ hv)
  refine ⟨v, hf.wider.areas m' hm' v hmem, hhas, ?_⟩
  simp only [History.faulted, History.created, if_neg hno, if_neg hfresh, hold]
  exact hp

/-- A page that was there and gets the entry of the fault: its copy, or another page for reading. -/
theorem History.Inv.faulted_present (hi : h.Inv) (hm : m ∈ h.procs) (hwrite : WriteFault h.vm m addr)
    (hexec : CopyFault h.vm m addr → (h.vm.pte m (addr / pgsize)).perm.x = false) (hn : addr / pgsize < userPages)
    (hmem : v ∈ (h.vm.mm m).mmapList) (hin : v.Contains addr) (hvalid : (h.vm.pte m (addr / pgsize)).v = true) :
    PageOk v.vmFlags ((h.faulted m addr 0 vm).orig m (addr / pgsize)) ((h.faulted m addr 0 vm).forked m (addr / pgsize))
      (faultPerm (h.vm.pte m (addr / pgsize)) v.vmFlags) := by
  have hcow := copyFault_iff hi.inv hm hmem hin
  have hfresh : ¬ Fresh h.vm vm m (addr / pgsize) := fun hcon => hcon.1 hvalid
  obtain ⟨w, hw, hwhas, hp⟩ := hi.pages m hm _ hn hvalid
  obtain rfl : w = v := (hi.inv.wf m hm).toSorted.unique hw hmem hwhas (((hi.inv.wf m hm).ok v hmem).has hin)
  have horig : (h.faulted m addr 0 vm).orig m (addr / pgsize) = h.orig m (addr / pgsize) := if_neg hfresh
  rw [horig, faultPerm]
  by_cases hcopy : CopyFault h.vm m addr
  · -- the copy
    have hforked : (h.faulted m addr 0 vm).forked m (addr / pgsize) = false := if_pos ⟨⟨rfl, rfl⟩, rfl, hcopy⟩
    rw [if_pos (hcow.mp hcopy), hforked]
    exact hp.copy (hcow.mp hcopy).2.2 fun hx => absurd hx (Bool.eq_false_iff.mp (hexec hcopy))
  · -- the area is not for writing, and the page is replaced
    have hforked : (h.faulted m addr 0 vm).forked m (addr / pgsize) = h.forked m (addr / pgsize) := by
      simp only [History.faulted, History.created, if_neg hfresh]
      exact if_neg fun hcon => hcopy hcon.2.2
    have hnw : (h.vm.pte m (addr / pgsize)).perm.w = false := by
      by_contra hw
      exact hwrite ⟨hvalid, Bool.not_eq_false _ ▸ hw, hp.user⟩
    have hflags : w.vmFlags.write = false := by
      by_contra hw
      exact hcopy (hcow.mpr ⟨hvalid, hnw, Bool.not_eq_false _ ▸ hw⟩)
    rw [if_neg fun hcon => hcopy (hcow.mpr hcon), hforked]
    exact hp.replace hflags

/-- A page that was missing. -/
theorem History.faulted_missing (h : History) (hfresh : Fresh h.vm vm m (addr / pgsize))
    (hperm : (vm.pte m (addr / pgsize)).perm = faultPerm (h.vm.pte m (addr / pgsize)) v.vmFlags) :
    PageOk v.vmFlags ((h.faulted m addr code vm).orig m (addr / pgsize)) ((h.faulted m addr code vm).forked m (addr / pgsize))
      (faultPerm (h.vm.pte m (addr / pgsize)) v.vmFlags) := by
  have hno : ¬ IsCow (h.vm.pte m (addr / pgsize)) v.vmFlags := fun hcon => hfresh.1 hcon.1
  have horig : (h.faulted m addr code vm).orig m (addr / pgsize) = missingPerm v.vmFlags := by
    simp only [History.faulted, History.created, if_pos hfresh]
    rw [hperm, faultPerm, if_neg hno]
  have hforked : (h.faulted m addr code vm).forked m (addr / pgsize) = false := by
    simp only [History.faulted, History.created, if_pos hfresh, ite_self]
  rw [faultPerm, if_neg hno, horig, hforked]
  exact .new (created_missing _)

theorem History.Inv.faulted (hi : h.Inv) (hm : m ∈ h.procs) (hwrite : WriteFault h.vm m addr)
    (hrun : doPgfault m errorCode addr h.vm = .ok code vm)
    (hkeeps : ¬ (CopyFault h.vm m addr ∧ CanCopy h.vm m addr ∧ (h.vm.pte m (addr / pgsize)).perm.x = true)) :
    (h.faulted m addr code vm).Inv := by
  have hf := (doPgfault_meets hi.inv hm errorCode addr).of_ok hrun
  refine ⟨hf.inv, fun m' hm' n hn hv => ?_⟩
  have hvm : (h.faulted m addr code vm).vm = vm := rfl
  rw [hvm] at hv
  by_cases hthis : m' = m ∧ n = addr / pgsize
  · obtain ⟨rfl, rfl⟩ := hthis
    rcases hf.entry with ⟨hcode, hold⟩ | ⟨rfl, v, hmem, hin, p, hpte⟩
    · exact hi.faulted_kept hm' hn hf hv hold fun hcon => hcode hcon.2.1
    · have hperm : (vm.pte m' (addr / pgsize)).perm = faultPerm (h.vm.pte m' (addr / pgsize)) v.vmFlags := by rw [hpte]; rfl
      refine ⟨v, hf.wider.areas m' hm v hmem, ((hi.inv.wf m' hm).ok v hmem).has hin, ?_⟩
      rw [hvm, hperm]
      by_cases hvalid : (h.vm.pte m' (addr / pgsize)).v = true
      · refine hi.faulted_present hm hwrite (fun hcopy => ?_) hn hmem hin hvalid
        have hcan := (doPgfault_copy hi.inv hm hcopy hrun).mp rfl
        exact Bool.eq_false_iff.mpr fun hx => hkeeps ⟨hcopy, hcan, hx⟩
      · exact h.faulted_missing ⟨hvalid, hv⟩ hperm
  · exact hi.faulted_kept hm' hn hf hv (hf.same m' hm' n hn hthis) fun hcon => hthis hcon.1

/-- The copy takes the place of the shared page. -/
theorem History.faulted_copy (h : History) (vm : Vm) (hcopy : CopyFault h.vm m addr) (hn : addr / pgsize = n) :
    (h.faulted m addr 0 vm).orig m n = h.orig m n ∧ (h.faulted m addr 0 vm).forked m n = false := by
  subst hn
  refine ⟨if_neg fun hfresh => ?_, if_pos ⟨⟨rfl, rfl⟩, rfl, hcopy⟩⟩
  obtain ⟨v, -, -, hcow⟩ := hcopy
  exact hfresh.1 hcow.1

/-! ## Runs -/

/-- **The step lemma.** -/
theorem step_inv {c : Call} (hi : h.Inv) (hkeeps : KeepsExec h c) (hs : Step h c h') : h'.Inv := by
  cases hs with
  | create hboot hrun =>
    obtain ⟨hnone, hw, hsame⟩ := (mmNew_pages hi.inv hboot).of_ok hrun
    refine ⟨(mmNew_inv hi.inv hboot).of_ok hrun, fun m hm n hn hv => ?_⟩
    rcases Finset.mem_insert.mp hm with rfl | hm
    · exact absurd hv (hnone n hn)
    · exact hi.pages_created hw (fun m' hm' n hn => .inl (hsame m' hm' n hn)) m hm n hn hv
  | noCreate hboot hrun =>
    obtain ⟨hw, hsame⟩ := (mmNew_pages hi.inv hboot).of_err hrun
    exact ⟨(mmNew_inv hi.inv hboot).of_err hrun, hi.pages_created hw fun m' hm' n hn => .inl (hsame m' hm' n hn)⟩
  | segment hm hrun => exact hi.loaded ((loadSegment_meets hi.inv hm hkeeps).endsIn hrun)
  | stack hm hrun => exact hi.loaded ((loadStack_meets hi.inv hm).endsIn hrun)
  | fork hdst hsrc hne hrun => exact hi.forked hdst hsrc hne ((dupMmap_meets hi.inv hdst hsrc hne).endsIn hrun)
  | fault hm hwrite hrun => exact hi.faulted hm hwrite hrun hkeeps

/-- **The run lemma.** -/
theorem reaches_inv (hr : Reaches Start Step KeepsExec h) : h.Inv := by
  refine hr.invariant ?_ fun _ _ _ hi hkeeps hs => step_inv hi hkeeps hs
  rintro ⟨s, procs, orig, forked⟩ ⟨hprocs, href⟩
  obtain rfl : procs = ∅ := hprocs
  exact ⟨vmReaches_inv (a := (s, ∅)) (.start ⟨rfl, href⟩), fun m hm => absurd hm (Finset.notMem_empty m)⟩

/-- The copy of a page with the right to execute does not have it. -/
theorem fault_not_kept (hi : h.Inv) (hm : m ∈ h.procs) (hrun : doPgfault m errorCode addr h.vm = .ok code vm)
    (hcopy : CopyFault h.vm m addr) (hcan : CanCopy h.vm m addr) (hx : (h.vm.pte m (addr / pgsize)).perm.x = true) :
    ¬ RightsKept (h.faulted m addr code vm) := by
  intro hkept
  have hcode := (doPgfault_copy hi.inv hm hcopy hrun).mpr hcan
  have hf := (doPgfault_meets hi.inv hm errorCode addr).of_ok hrun
  rcases hf.entry with ⟨hfail, -⟩ | ⟨-, v, hmem, hin, p, hpte⟩
  · exact hfail hcode
  · have hcow := (copyFault_iff hi.inv hm hmem hin).mp hcopy
    have hn : addr / pgsize < userPages := page_lt (((hi.inv.wf m hm).ok v hmem).lt_userTop hin)
    rw [faultPerm, if_pos hcow] at hpte
    have hv : (vm.pte m (addr / pgsize)).v = true := by rw [hpte]; rfl
    subst hcode
    obtain ⟨horig, hforked⟩ := h.faulted_copy vm hcopy rfl
    have hpage := hkept m hm _ hn hv
    obtain ⟨_, _, _, hp⟩ := hi.pages m hm _ hn hcow.1
    rw [hforked, if_neg Bool.false_ne_true, horig] at hpage
    have hlost : (vm.pte m (addr / pgsize)).perm.x = true := hpage.2.2.1 (hp.exec hx)
    rw [hpte] at hlost
    exact Bool.noConfusion hlost

/-- **Permissions through copy-on-write.** In every run in which no copy is made of a page with the right to execute, all
pages keep their rights; and any such copy takes this right away. -/
theorem cow_rights (hr : Reaches Start Step KeepsExec h) : RightsKept h ∧ ∀ m errorCode addr h', Step h (.fault m errorCode addr) h' →
    (RightsKept h' ↔ KeepsExec h (.fault m errorCode addr)) := by
  have hi := reaches_inv hr
  refine ⟨hi.rightsKept, fun m errorCode addr h' hs => ⟨?_, fun hkeeps => (step_inv hi hkeeps hs).rightsKept⟩⟩
  rintro hkept ⟨hcopy, hcan, hx⟩
  cases hs with
  | fault hm _ hrun => exact fault_not_kept hi hm hrun hcopy hcan hx hkept

/-- The entry does not permit writing. -/
theorem writeFault_of_perm (hn : addr / pgsize = n) (hp : (s.pte m n).perm = perm) (hw : perm.w = false) : WriteFault s m addr := by
  rintro ⟨-, hcon, -⟩
  rw [hn, hp, hw] at hcon
  cases hcon

/-! ## A segment of one page, a fork, and a write by the child -/

/-- A segment at `USERBASE` with these flags -/
def onePage (pFlags : Nat) : ProgHdr :=
  { pType := elfPtLoad, pFlags := pFlags, pOffset := 0, pVa := 0x200000, pFilesz := 0x1000, pMemsz := 0x1000 }

/-- It is loaded, then there is a second address space, and the first one is copied. -/
def loadedVm (pFlags : Nat) : Vm := (loadSegment (fun _ => 0) 0 (onePage pFlags) emptyVm).left emptyVm
def childVm (pFlags : Nat) : Vm := (mmNew (fun _ => .zero) (loadedVm pFlags)).left (loadedVm pFlags)
def forkedVm (pFlags : Nat) : Vm := (dupMmap 2 0 (childVm pFlags)).left (childVm pFlags)

def startHistory : History := { vm := freshVm, procs := ∅, orig := fun _ _ => Perm.none, forked := fun _ _ => false }
def emptyHistory : History := { startHistory.created emptyVm with procs := insert 0 ∅ }
def childHistory (pFlags : Nat) : History :=
  { (emptyHistory.created (loadedVm pFlags)).created (childVm pFlags) with procs := insert 2 (insert 0 ∅) }
def forkedHistory (pFlags : Nat) : History := (childHistory pFlags).shared 2 0 (forkedVm pFlags)

/-- The run up to the fork, whose steps are to be computed. -/
theorem forkedHistory_reached {pFlags : Nat} (hload : (loadSegment (fun _ => 0) 0 (onePage pFlags) emptyVm).EndsIn (loadedVm pFlags))
    (hchild : mmNew (fun _ => .zero) (loadedVm pFlags) = .ok 2 (childVm pFlags))
    (hfork : (dupMmap 2 0 (childVm pFlags)).EndsIn (forkedVm pFlags)) : Reaches Start Step KeepsExec (forkedHistory pFlags) := by
  have hstart : Reaches Start Step KeepsExec startHistory := .start ⟨rfl, fun _ => rfl⟩
  have hcreate : Step startHistory (.create fun _ => .zero) emptyHistory := .create (fun _ _ => rfl) rfl
  have hsegment : Step emptyHistory (.segment 0 (fun _ => 0) (onePage pFlags)) (emptyHistory.created (loadedVm pFlags)) :=
    .segment (Finset.mem_insert_self 0 ∅) hload
  have hsecond : Step (emptyHistory.created (loadedVm pFlags)) (.create fun _ => .zero) (childHistory pFlags) :=
    .create (fun _ _ => rfl) hchild
  have hshare : Step (childHistory pFlags) (.fork 2 0) (forkedHistory pFlags) :=
    .fork (Finset.mem_insert_self 2 _) (Finset.mem_insert_of_mem (Finset.mem_insert_self 0 ∅)) (by decide) hfork
  have hfits : KeepsExec emptyHistory (.segment 0 (fun _ => 0) (onePage pFlags)) :=
    fileFits_of_sum (show 0x200000 + 0x1000 < 2 ^ 64 by decide)
  have hcreates : ∀ h boot, KeepsExec h (.create boot) := fun _ _ => trivial
  have hforks : KeepsExec (childHistory pFlags) (.fork 2 0) := trivial
  exact (((hstart.next (hcreates _ _) hcreate).next hfits hsegment).next (hcreates _ _) hsecond).next hforks hshare

/-- The page may be read, written and executed. After the fork the child may read and execute it, after its write fault read
and write it. -/
theorem cow_rights_exec : ∃ h h', Reaches Start Step KeepsExec h ∧ Step h (.fault 2 15 0x200000) h' ∧
    h.orig 2 512 = ⟨true, true, true, true⟩ ∧
    (h.vm.pte 2 512).perm = ⟨true, false, true, true⟩ ∧ (h'.vm.pte 2 512).perm = ⟨true, true, false, true⟩ ∧
    h'.orig 2 512 = ⟨true, true, true, true⟩ ∧ h'.forked 2 512 = false ∧ ¬ RightsKept h' := by
  have hreach : Reaches Start Step KeepsExec (forkedHistory 7) := forkedHistory_reached rfl rfl rfl
  have htest : (doPgfault 2 15 0x200000 (forkedVm 7)).test (fun code s' => code == 0 &&
      (s'.pte 2 512).perm == ⟨true, true, false, true⟩) = true := by decide +kernel
  obtain ⟨code, s', hrun, hgood⟩ := Outcome.exists_of_test htest
  simp only [Bool.and_eq_true, beq_iff_eq] at hgood
  obtain ⟨rfl, hperm⟩ := hgood
  have hcopy : CopyFault (forkedVm 7) 2 0x200000 := by decide +kernel
  have hcan : CanCopy (forkedVm 7) 2 0x200000 := .inr ⟨7, rfl, by decide +kernel⟩
  have hbefore : ((forkedVm 7).pte 2 512).perm = ⟨true, false, true, true⟩ := by decide +kernel
  have horig : (forkedHistory 7).orig 2 512 = ⟨true, true, true, true⟩ := by decide +kernel
  have hm : 2 ∈ (forkedHistory 7).procs := Finset.mem_insert_self 2 _
  have hwrite : WriteFault (forkedVm 7) 2 0x200000 := writeFault_of_perm (n := 512) rfl hbefore rfl
  have hx : ((forkedVm 7).pte 2 512).perm.x = true := by rw [hbefore]
  obtain ⟨hkept, hforked⟩ := (forkedHistory 7).faulted_copy s' hcopy (n := 512) rfl
  have hlost := fault_not_kept (reaches_inv hreach) hm hrun hcopy hcan hx
  exact ⟨_, _, hreach, .fault hm hwrite hrun, horig, hbefore, hperm, hkept.trans horig, hforked, hlost⟩

/-- A page that may be read and written has both rights back after the write fault. -/
theorem cow_rights_data : ∃ h h', Reaches Start Step KeepsExec h ∧ Step h (.fault 2 15 0x200000) h' ∧
    RightsKept h ∧ RightsKept h' ∧ (h.vm.pte 2 512).perm = ⟨true, false, false, true⟩ ∧
    (h'.vm.pte 2 512).perm = ⟨true, true, false, true⟩ := by
  have hreach : Reaches Start Step KeepsExec (forkedHistory 6) := forkedHistory_reached rfl rfl rfl
  have htest : (doPgfault 2 15 0x200000 (forkedVm 6)).test (fun code s' => code == 0 &&
      (s'.pte 2 512).perm == ⟨true, true, false, true⟩) = true := by decide +kernel
  obtain ⟨code, s', hrun, hgood⟩ := Outcome.exists_of_test htest
  simp only [Bool.and_eq_true, beq_iff_eq] at hgood
  obtain ⟨rfl, hperm⟩ := hgood
  have hbefore : ((forkedVm 6).pte 2 512).perm = ⟨true, false, false, true⟩ := by decide +kernel
  have hwrite : WriteFault (forkedVm 6) 2 0x200000 := writeFault_of_perm (n := 512) rfl hbefore rfl
  have hkeeps : KeepsExec (forkedHistory 6) (.fault 2 15 0x200000) := by
    rintro ⟨-, -, hx⟩
    have hx' : ((forkedVm 6).pte 2 512).perm.x = true := hx
    rw [hbefore] at hx'
    cases hx'
  have hstep : Step (forkedHistory 6) (.fault 2 15 0x200000) ((forkedHistory 6).faulted 2 0x200000 0 s') :=
    .fault (Finset.mem_insert_self 2 _) hwrite hrun
  obtain ⟨hrights, hfaults⟩ := cow_rights hreach
  exact ⟨_, _, hreach, hstep, hrights, (hfaults _ _ _ _ hstep).mpr hkeeps, hbefore, hperm⟩

end Cow

end Ucore
