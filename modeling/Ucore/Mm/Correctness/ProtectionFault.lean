import Ucore.Mm.Cow
import Ucore.Mm.Correctness.Teardown

/-!
# `Mm.Correctness.ProtectionFault` — faults on a page that is mapped

`do_pgfault` looks at the page table entry only to see whether it has to make a copy. A fault on a valid entry that is no
copy-on-write fault ends like one on a missing page: whatever the area permits, a new page takes the place of the old one,
as long as there is one.
-/

namespace Ucore.Cow

open Ucore.PageMem

/-- What the process tried to do -/
inductive Access where
  | read
  | write
  | exec
deriving DecidableEq

/-- An area with these flags permits the access. -/
def Access.AllowedBy (flags : VmFlags) : Access → Prop
  | .read  => flags.read = true
  | .write => flags.write = true
  | .exec  => flags.exec = true

variable {s s' : Vm} {mem mem' : PageMem} {m addr pgdir la t i p code errorCode : Nat} {flags : VmFlags} {perm : Perm}
  {ptep : Nat × Nat} {acc : Access}

/-- `get_pte` finds a valid entry for the address. -/
def Present (s : Vm) (m addr : Nat) (ptep : Nat × Nat) : Prop :=
  getPte (s.mm m).pgdir (rounddown addr pgsize) false s.mem = .ok (some ptep) s.mem ∧ (s.mem.table ptep.1 ptep.2).v = true

/-- No area asks for a copy. -/
def NoCopy (s : Vm) (m addr : Nat) (pte : Pte) : Prop := ∀ vma, (s.mm m).findVma addr = some vma → ¬ IsCow pte vma.vmFlags

/-- **What is asked of a protection fault:** the page stays what it is, no page is allocated, and an access that is not
permitted is refused. -/
structure Refuses (s : Vm) (m addr : Nat) (ptep : Nat × Nat) (acc : Access) (code : Int) (s' : Vm) : Prop where
  mapping : s'.mem.table ptep.1 ptep.2 = s.mem.table ptep.1 ptep.2
  contents : s'.mem.data (s.mem.table ptep.1 ptep.2).ppn = s.mem.data (s.mem.table ptep.1 ptep.2).ppn
  refs : s'.mem.ref = s.mem.ref
  free : s'.mem.free = s.mem.free
  denied : (∀ vma, (s.mm m).findVma addr = some vma → ¬ acc.AllowedBy vma.vmFlags) → code ≠ 0

def Harmless (s : Vm) (m errorCode addr : Nat) (ptep : Nat × Nat) (acc : Access) : Prop :=
  ∃ code s', doPgfault m errorCode addr s = .ok code s' ∧ Refuses s m addr ptep acc code s'

/-- The page allocator has a page to give. -/
def HasPage (mem : PageMem) : Prop := ∃ p, mem.pick mem.ticks = some p ∧ p ∈ mem.free

/-! ## Both walks of the tables -/

/-- `ROUNDDOWN(addr, PGSIZE)` has the same way through the tables. -/
theorem getPte_rounddown (pgdir addr : Nat) (create : Bool) : getPte pgdir (rounddown addr pgsize) create = getPte pgdir addr create := by
  have h1 : pdx1 (rounddown addr pgsize) = pdx1 addr := by
    show (addr - addr % 2 ^ 12) / 2 ^ 30 % 512 = addr / 2 ^ 30 % 512
    omega
  have h0 : pdx0 (rounddown addr pgsize) = pdx0 addr := by
    show (addr - addr % 2 ^ 12) / 2 ^ 21 % 512 = addr / 2 ^ 21 % 512
    omega
  have ht : ptx (rounddown addr pgsize) = ptx addr := by
    show (addr - addr % 2 ^ 12) / 2 ^ 12 % 512 = addr / 2 ^ 12 % 512
    omega
  rw [getPte, getPte, h1, h0, ht]

/-- An entry that was found without `create` is found with it, and no table is made. -/
theorem getPte_again (h : getPte pgdir la false mem = .ok (some ptep) mem) (htable : mem'.table = mem.table) :
    getPte pgdir la true mem' = .ok (some ptep) mem' := by
  rw [getPte, Proc.bind_ok (getTable_false mem pgdir (pdx1 la))] at h
  cases hpd : mem.sub pgdir (pdx1 la) with
  | none =>
    rw [hpd] at h
    cases h
  | some pd0 =>
    rw [hpd] at h
    dsimp only at h
    rw [Proc.bind_ok (getTable_false mem pd0 (pdx0 la))] at h
    cases hpt : mem.sub pd0 (pdx0 la) with
    | none =>
      rw [hpt] at h
      cases h
    | some pt =>
      rw [hpt] at h
      rw [← sub_congr htable] at hpd hpt
      rw [getPte, Proc.bind_ok (getTable_found hpd true)]
      dsimp only
      rw [Proc.bind_ok (getTable_found hpt true)]
      cases h
      rfl

/-! ## The page that takes its place -/

/-- `page_insert` of a free page does not free it again. -/
theorem pageInsert_over (h : getPte pgdir la false mem = .ok (some ptep) mem) (hv : (mem.table ptep.1 ptep.2).v = true) (p : Nat)
    (perm : Perm) : ∃ mem', pageInsert pgdir p la perm (mem.take p) = .ok () mem' ∧ p ∉ mem'.free := by
  have hrun : pageInsert pgdir p la perm (mem.take p) = pageInsertAt p ptep.1 ptep.2 perm (mem.take p) := by
    have hget : getPte pgdir la true (mem.take p) = .ok (some ptep) (mem.take p) := getPte_again h rfl
    rw [pageInsert, Proc.bind_ok hget]
  rw [hrun, pageInsertAt_run]
  refine ⟨_, rfl, ?_⟩
  have htaken : p ∉ (mem.take p).free := Finset.notMem_erase p mem.free
  have hv' : ((mem.take p).table ptep.1 ptep.2).v = true := hv
  rw [if_pos hv']
  by_cases hp : ((mem.take p).table ptep.1 ptep.2).ppn = p
  · rw [if_pos hp]
    exact htaken
  · rw [if_neg hp]
    intro hmem
    -- only the page that was mapped before may be given back
    rcases mem_unref_free.mp hmem with hmem | hmem
    · exact htaken hmem
    · exact hp (mem_lastRef.mp hmem).1.symm

theorem missingFault_noPage (h : ¬ HasPage mem) : missingFault pgdir addr perm mem = .ok (-eInval) mem.tick := by
  have hnone : allocPage mem = .ok none mem.tick := allocPage_none fun p hpick hp => h ⟨p, hpick, hp⟩
  have hrun : pgdirAllocPage pgdir addr perm mem = .ok none mem.tick := by
    rw [pgdirAllocPage, Proc.bind_ok hnone]
    rfl
  rw [missingFault, Proc.bind_ok hrun]
  rfl

/-- If there is a page, it is taken. -/
theorem missingFault_page (h : HasPage mem) (hpte : getPte pgdir addr false mem = .ok (some ptep) mem)
    (hv : (mem.table ptep.1 ptep.2).v = true) {code : Int} (hrun : missingFault pgdir addr perm mem = .ok code mem') :
    mem'.free ≠ mem.free := by
  obtain ⟨p, hpick, hp⟩ := h
  obtain ⟨mem₁, hins, hout⟩ := pageInsert_over hpte hv p perm
  have halloc : pgdirAllocPage pgdir addr perm mem = (Proc.check .allocRef (mem₁.ref p = 1) >>= fun _ => pure (some p) : MemM _) mem₁ := by
    rw [pgdirAllocPage, Proc.bind_ok (allocPage_some hpick hp)]
    dsimp only
    rw [Proc.bind_ok (Proc.attempt_ok hins)]
    rfl
  obtain ⟨page, mem₂, hpage, hend⟩ := Proc.bind_eq_ok.mp hrun
  rw [halloc] at hpage
  have hsame : mem₂ = mem₁ := by
    by_cases hone : mem₁.ref p = 1
    · rw [Proc.check_bind_pos hone] at hpage
      cases hpage
      rfl
    · rw [Proc.check_bind_neg hone] at hpage
      cases hpage
  have hlast : mem' = mem₂ := by
    cases page with
    | none =>
      cases hend
      rfl
    | some _ =>
      cases hend
      rfl
  intro heq
  rw [← heq, hlast, hsame] at hp
  exact hout hp

/-! ## `do_pgfault` -/

theorem doPgfault_none (h : (s.mm m).findVma addr = none) :
    doPgfault m errorCode addr s = .ok (-eInval) (s.setMm m ((s.mm m).found addr)) := by
  rw [doPgfault, Proc.bind_ok (findVma_run m addr s), h]
  rfl

/-- The areas are looked up, and the rest is about the page. -/
theorem doPgfault_some {vma : Vma} (h : (s.mm m).findVma addr = some vma) : doPgfault m errorCode addr s =
    inMem (faultIn (s.mm m).pgdir addr vma.vmFlags) (s.setMm m ((s.mm m).found addr)) := by
  have hstart : ¬ vma.vmStart > addr := Nat.not_lt.mpr (Mm.find_contains h).1
  have hpgdir : ((s.setMm m ((s.mm m).found addr)).mm m).pgdir = (s.mm m).pgdir := by
    show (Function.update s.mm m _ m).pgdir = _
    rw [Function.update_self]
    exact ((s.mm m).found_same addr).2.1
  rw [doPgfault, Proc.bind_ok (findVma_run m addr s), h]
  dsimp only
  rw [if_neg hstart, Proc.get_bind, hpgdir]

theorem faultIn_present (hpte : getPte pgdir (rounddown addr pgsize) false mem = .ok (some ptep) mem)
    (hcow : ¬ IsCow (mem.table ptep.1 ptep.2) flags) :
    faultIn pgdir addr flags mem = missingFault pgdir addr (missingPerm flags) mem := by
  rw [faultIn]
  dsimp only
  rw [Proc.bind_ok hpte]
  dsimp only
  rw [Proc.get_bind, if_neg hcow]

/-- **A protection fault is harmless** exactly if no area contains the address, or no page is left to allocate. -/
theorem protection_fault (hpte : Present s m addr ptep) (hcow : NoCopy s m addr (s.mem.table ptep.1 ptep.2)) :
    Harmless s m errorCode addr ptep acc ↔ (s.mm m).findVma addr = none ∨ ¬ HasPage s.mem := by
  obtain ⟨hget, hv⟩ := hpte
  cases hvma : (s.mm m).findVma addr with
  | none =>
    refine ⟨fun _ => .inl rfl, fun _ => ⟨_, _, doPgfault_none hvma, ?_⟩⟩
    exact ⟨rfl, rfl, rfl, rfl, fun _ => by decide⟩
  | some vma =>
    have hrun : doPgfault m errorCode addr s = _ := doPgfault_some hvma
    have hfault := faultIn_present hget (hcow vma hvma)
    generalize hfound : s.setMm m ((s.mm m).found addr) = s₁ at hrun
    have hmem : s₁.mem = s.mem := by
      rw [← hfound]
      rfl
    constructor
    · rintro ⟨code, s', hend, hrefuses⟩
      refine .inr fun hpage => ?_
      rw [hrun] at hend
      obtain ⟨mem', hmissing, hs'⟩ := inMem_eq_ok.mp hend
      rw [hmem, hfault] at hmissing
      rw [getPte_rounddown] at hget
      refine missingFault_page hpage hget hv hmissing ?_
      have hfree := hrefuses.free
      rw [hs'] at hfree
      exact hfree
    · rintro (hnone | hpage)
      · cases hnone
      · have hmissing : faultIn (s.mm m).pgdir addr vma.vmFlags s₁.mem = .ok (-eInval) s.mem.tick := by
          rw [hmem, hfault]
          exact missingFault_noPage hpage
        refine ⟨-eInval, s₁.setMem s.mem.tick, ?_, ⟨rfl, rfl, rfl, rfl, fun _ => by decide⟩⟩
        rw [hrun]
        exact Proc.zoom_ok hmissing

/-! ## An area that is not for execution -/

theorem oneAreaVm_present : Present oneAreaVm 0 0x200000 (3, 0) := ⟨rfl, rfl⟩

theorem oneAreaVm_noCopy : NoCopy oneAreaVm 0 0x200000 (oneAreaVm.mem.table 3 0) := fun _ _ hcow => Bool.noConfusion hcow.2.1

/-- Executing data is no error: page 4 takes the place of page 1, which is freed. -/
theorem protection_fault_exec : Present oneAreaVm 0 0x200000 (3, 0) ∧ NoCopy oneAreaVm 0 0x200000 (oneAreaVm.mem.table 3 0) ∧
    (∃ s', doPgfault 0 12 0x200000 oneAreaVm = .ok 0 s' ∧ (oneAreaVm.mem.table 3 0).ppn = 1 ∧ (s'.mem.table 3 0).ppn = 4 ∧
      s'.mem.freed = [1]) ∧
    ¬ Harmless oneAreaVm 0 12 0x200000 (3, 0) .exec := by
  have htest : (doPgfault 0 12 0x200000 oneAreaVm).test (fun code s' =>
      code == 0 && (s'.mem.table 3 0).ppn == 4 && s'.mem.freed == [1]) = true := by decide +kernel
  obtain ⟨code, s', hrun, hgood⟩ := Outcome.exists_of_test htest
  simp only [Bool.and_eq_true, beq_iff_eq] at hgood
  obtain ⟨⟨rfl, hppn⟩, hfreed⟩ := hgood
  refine ⟨oneAreaVm_present, oneAreaVm_noCopy, ⟨s', hrun, rfl, hppn, hfreed⟩, ?_⟩
  rintro ⟨code, s'', hrun', hrefuses⟩
  cases hrun.symm.trans hrun'
  refine hrefuses.denied (fun vma hvma => ?_) rfl
  cases hvma
  exact Bool.false_ne_true

/-- With the allocator empty, the same fault is refused. -/
theorem protection_fault_empty :
    Harmless (oneAreaVm.setMem { oneAreaVm.mem with free := ∅ }) 0 12 0x200000 (3, 0) .exec :=
  (protection_fault ⟨rfl, rfl⟩ fun _ _ hcow => Bool.noConfusion hcow.2.1).mpr
    (.inr fun ⟨p, _, hp⟩ => Finset.notMem_empty p hp)

end Ucore.Cow
