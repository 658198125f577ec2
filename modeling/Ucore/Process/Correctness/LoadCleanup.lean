import Ucore.Process.Correctness.ExecFresh

/-!
# `Process.Correctness.LoadCleanup` — what is left of a `load_icode` that fails

At `bad_mm` the areas and the `mm_struct` are freed; the directory, its tables and the pages are not. So whatever fails once there
is a directory, its page is lost (`Taken`: it is not free, and no count of it is going to reach zero from above).
-/

namespace Ucore

variable {α : Type} {p : Nat} {boot : Nat → Pte} {file : ElfFile} {argc : Nat} {kargv : Nat → Bytes} {s : Exec}

/-- The page is not free, and it is not counted, as that of a directory. -/
def PageMem.Taken (p : Nat) (s : PageMem) : Prop := p ∉ s.free ∧ s.ref p ≤ 0

/-! ## Pages and their tables -/

section

variable {x : MemM α} {f : Option Nat → MemM α} {t i page la pgdir : Nat} {perm : Perm}

theorem taken_modify {g : PageMem → PageMem} (h : ∀ s, s.Taken p → (g s).Taken p) :
    Blind (Keeping (PageMem.Taken p)) (Proc.modify g : MemM Unit) := by
  refine .of_modify ?_
  rintro s _ ⟨rfl, hs⟩
  exact ⟨rfl, h _ hs⟩

theorem taken_get {f : PageMem → MemM α} (hf : ∀ s, Blind (Keeping (PageMem.Taken p)) (f s)) :
    Blind (Keeping (PageMem.Taken p)) (Proc.get >>= f) :=
  .of_get (fun s t hst => by rw [hst.1]) hf

/-- What is allocated is another page. -/
theorem taken_alloc (hnone : Blind (Keeping (PageMem.Taken p)) (f none))
    (hsome : ∀ q, q ≠ p → Blind (Keeping (PageMem.Taken p)) (f (some q))) : Blind (Keeping (PageMem.Taken p)) (allocPage >>= f) := by
  refine blind_keeping.mpr fun s hs => ?_
  rcases allocPage_cases s with h | ⟨q, hq, h⟩
  · rw [Proc.bind_ok h]
    exact blind_keeping.mp hnone _ hs
  · rw [Proc.bind_ok h]
    have hne : q ≠ p := by
      rintro rfl
      exact hs.1 hq
    exact blind_keeping.mp (hsome q hne) _ ⟨fun hp => hs.1 (Finset.mem_of_mem_erase hp), hs.2⟩

theorem taken_setRef {q : Nat} (hq : q ≠ p) (r : PageMem → Int) {s : PageMem} (hs : s.Taken p) : (s.setRef q (r s)).Taken p := by
  refine ⟨hs.1, ?_⟩
  show Function.update s.ref q (r s) p ≤ 0
  rw [Function.update_of_ne hq.symm]
  exact hs.2

theorem taken_give {q : Nat} (hq : q ≠ p) {s : PageMem} (hs : s.Taken p) : (s.give q).Taken p := by
  refine ⟨fun hp => ?_, ?_⟩
  · rcases Finset.mem_insert.mp hp with rfl | hp
    · exact hq rfl
    · exact hs.1 hp
  · show Function.update s.ref q 0 p ≤ 0
    rw [Function.update_of_ne hq.symm]
    exact hs.2

theorem getTable_taken (t i : Nat) (create : Bool) : Blind (Keeping (PageMem.Taken p)) (getTable t i create) := by
  refine taken_get fun s => .ite (.of_pure _) (.ite (.of_pure _) (taken_alloc (.of_pure none) fun q hq => ?_))
  refine Blind.bind (taken_modify fun s hs => ?_) fun _ => .of_pure _
  exact taken_setRef hq (fun _ => 1) hs

theorem getPte_taken (pgdir la : Nat) (create : Bool) : Blind (Keeping (PageMem.Taken p)) (getPte pgdir la create) := by
  refine (getTable_taken pgdir (pdx1 la) create).bind fun pd0 => ?_
  cases pd0 with
  | none => exact .of_pure none
  | some pd0 =>
    refine (getTable_taken pd0 (pdx0 la) create).bind fun pt => ?_
    cases pt with
    | none => exact .of_pure none
    | some pt => exact .of_pure _

/-- A count that is taken down from below does not reach zero. -/
theorem pageRemovePte_taken (t i : Nat) : Blind (Keeping (PageMem.Taken p)) (pageRemovePte t i) := by
  refine taken_get fun s => .ite ?_ (.of_pure ())
  generalize (s.table t i).ppn = q
  refine blind_keeping.mpr fun s hs => ?_
  have hset : Blind (Keeping (PageMem.Taken p)) (Proc.modify fun s => s.setPte t i .zero : MemM Unit) := taken_modify fun s hs => hs
  have hdec : (s.setRef q (s.ref q - 1)).Taken p := by
    by_cases hq : q = p
    · subst hq
      refine ⟨hs.1, ?_⟩
      show Function.update s.ref q (s.ref q - 1) q ≤ 0
      rw [Function.update_self]
      have := hs.2
      omega
    · exact taken_setRef hq (fun s => s.ref q - 1) hs
  have hrun : pageRefDec q s = .ok () (s.setRef q (s.ref q - 1)) := rfl
  rw [Proc.bind_ok hrun, Proc.get_bind]
  dsimp only
  split
  · next hzero =>
    have hq : q ≠ p := by
      rintro rfl
      have h0 : Function.update s.ref q (s.ref q - 1) q = 0 := hzero
      rw [Function.update_self] at h0
      have := hs.2
      omega
    exact blind_keeping.mp hset _ (taken_give hq hdec)
  · exact blind_keeping.mp hset _ hdec

theorem pageInsert_taken (hpage : page ≠ p) (pgdir la : Nat) (perm : Perm) :
    Blind (Keeping (PageMem.Taken p)) (pageInsert pgdir page la perm) := by
  refine (getPte_taken pgdir la true).bind fun ptep => ?_
  cases ptep with
  | none => exact .of_fail _
  | some x =>
    have hset : Blind (Keeping (PageMem.Taken p)) (Proc.modify fun s => s.setPte x.1 x.2 (pteCreate page perm) : MemM Unit) :=
      taken_modify fun s hs => hs
    have hinc : Blind (Keeping (PageMem.Taken p)) (pageRefInc page) := taken_modify fun s => taken_setRef hpage fun s => s.ref page + 1
    have hdec : Blind (Keeping (PageMem.Taken p)) (pageRefDec page) := taken_modify fun s => taken_setRef hpage fun s => s.ref page - 1
    refine hinc.bind fun _ => taken_get fun s => ?_
    dsimp only
    exact .ite (.ite (hdec.bind fun _ => hset) ((pageRemovePte_taken x.1 x.2).bind fun _ => hset)) hset

theorem pgdirAllocPage_taken (pgdir la : Nat) (perm : Perm) : Blind (Keeping (PageMem.Taken p)) (pgdirAllocPage pgdir la perm) := by
  refine taken_alloc (.of_pure none) fun q hq => (pageInsert_taken hq pgdir la perm).attempt.bind fun ret => ?_
  cases ret with
  | error e => exact Blind.bind (taken_modify fun s => taken_give hq) fun _ => .of_pure none
  | ok _ => exact taken_get fun s => (Blind.of_check _ _).bind fun _ => .of_pure _

end

/-! ## `load_icode` -/

/-- The same for the kernel -/
def Exec.Taken (p : Nat) (s : Exec) : Prop := s.vm.mem.Taken p

theorem inVm_kept {I : Vm → Prop} {x : VmM α} (hx : Blind (Keeping I) x) : Blind (Keeping fun s : Exec => I s.vm) (inVm x) := by
  refine blind_keeping.mpr fun s hs => ?_
  have hl := blind_keeping.mp hx s.vm hs
  rw [inVm]
  generalize x s.vm = o at hl
  cases o with
  | ok a v => exact hl
  | err e v => exact hl
  | panic q => trivial

theorem inMem_kept {I : PageMem → Prop} {x : MemM α} (hx : Blind (Keeping I) x) : Blind (Keeping fun s : Vm => I s.mem) (inMem x) := by
  refine blind_keeping.mpr fun s hs => ?_
  have hl := blind_keeping.mp hx s.mem hs
  rw [inMem, Proc.zoom]
  generalize x s.mem = o at hl
  cases o with
  | ok a v => exact hl
  | err e v => exact hl
  | panic q => trivial

theorem areas_kept (I : PageMem → Prop) : Areas (Keeping fun s : Vm => I s.mem) := by
  refine ⟨?_, ?_, ?_, ?_, ?_, ?_, ?_⟩
  · rintro s _ ⟨rfl, -⟩
    rfl
  · rintro s _ ⟨rfl, -⟩
    rfl
  · rintro s _ ⟨rfl, -⟩
    rfl
  · rintro s _ m a ⟨rfl, hs⟩
    exact ⟨rfl, hs⟩
  · rintro s _ ⟨rfl, hs⟩
    exact ⟨rfl, hs⟩
  · rintro s _ q ⟨rfl, hs⟩
    exact ⟨rfl, hs⟩
  · rintro s _ q ⟨rfl, hs⟩
    exact ⟨rfl, hs⟩

theorem loader_taken (p : Nat) : Loader (Keeping (Exec.Taken p)) := by
  have hmodify : ∀ {g : Exec → Exec}, (∀ s, s.Taken p → (g s).Taken p) → Blind (Keeping (Exec.Taken p)) (Proc.modify g : ExecM Unit) := by
    intro g hg
    refine .of_modify ?_
    rintro s _ ⟨rfl, hs⟩
    exact ⟨rfl, hg _ hs⟩
  refine ⟨?_, ?_, fun _ _ _ => ?_, fun _ _ => ?_, fun _ _ _ _ => ?_, fun _ _ _ _ _ => ?_, fun _ _ _ _ => ?_⟩
  · rintro s _ ⟨rfl, -⟩
    rfl
  · rintro s _ m ⟨rfl, -⟩
    rfl
  · exact inVm_kept (inMem_kept (pgdirAllocPage_taken _ _ _))
  · exact inVm_kept (inMem_kept (getPte_taken _ _ _))
  · exact inVm_kept ((areas_kept _).mmMap _ _ _ _)
  · exact hmodify fun s hs => hs
  · exact hmodify fun s hs => hs

/-- **A failure after `setup_pgdir`** leaves the directory behind. -/
theorem loadInto_leaks {m : Nat} {e : Int} {t : Exec} (hs : s.Taken p)
    (hrun : Proc.onErr (loadInto file argc kargv m) (badMm m) s = .err e t) : p ∉ t.vm.mem.free := by
  have hbad : Blind (Keeping (Exec.Taken p)) (badMm m) := by
    refine (inVm_kept ((areas_kept _).mmDestroy m)).bind fun _ => .of_modify ?_
    rintro s _ ⟨rfl, hs⟩
    exact ⟨rfl, hs⟩
  have hl := blind_keeping.mp (((loader_taken p).loadInto file argc kargv m).onErr hbad) s hs
  rw [hrun] at hl
  exact hl.1

/-- `load_icode` fails with an error, and what it has allocated is free again. -/
def FailsClean (boot : Nat → Pte) (file : ElfFile) (argc : Nat) (kargv : Nat → Bytes) (s : Exec) : Prop :=
  ∃ e t, loadIcode boot file argc kargv s = .err e t ∧ e < 0 ∧ t.vm.mem.free = s.vm.mem.free ∧ t.vm.live = s.vm.live

/-- Without an address space there is an error, and nothing to be freed. -/
theorem failsClean_of_noSpace (hargc : argc ≤ execMaxArgNum) (hno : ¬ s.vm.HasSpace) : FailsClean boot file argc kargv s := by
  have hcheck : (Proc.check .argNum (argc ≤ execMaxArgNum) : ExecM Unit) s = .ok () s := Proc.check_eq_ok.mpr ⟨hargc, rfl⟩
  have hload : ∀ v, mmNew boot s.vm = .err (-eNoMem) v →
      loadIcode boot file argc kargv s = .err (-eNoMem) { s with vm := v } := by
    intro v hv
    have hnew : inVm (mmNew boot) s = .err (-eNoMem) { s with vm := v } := by
      rw [inVm, hv]
    rw [loadIcode, Proc.bind_ok hcheck, Proc.bind_err hnew]
  rcases mmNew_cases boot s.vm with ⟨-, hrun | ⟨m, hm, hrun⟩⟩ | ⟨hspace, -⟩
  · exact ⟨_, _, hload _ hrun, by decide, rfl, rfl⟩
  · exact ⟨_, _, hload _ hrun, by decide, rfl, Finset.erase_insert hm⟩
  · exact absurd hspace hno

/-- A file of zeros -/
def notElf : ElfFile where
  bytes _ := 0
  size := 64
  got offset len := min len (64 - offset)
  err _ _ := 0
  size_lt := bareFile.size_lt
  got_le := bareFile.got_le

/-- A kernel without free pages -/
def fullKernel : Exec := (freeKernel 0).modMem fun m => { m with free := ∅ }

end Ucore
