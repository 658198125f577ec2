import Ucore.Process.Correctness.LoadWalk

/-!
# `Process.Correctness.LoadBlind` — `load_icode` does not look at what pages hold

It allocates, maps and copies, and whether it goes on never depends on a byte of a page. So if it returns, it also returns
from a state whose pages hold something else, and what it leaves differs in nothing but that (`loadIcode_blind`).
-/

namespace Ucore

/-- The pages hold something else. -/
def PageMem.setAll (x : Nat → Bytes) (s : PageMem) : PageMem := { s with data := x }

def Vm.setAll (x : Nat → Bytes) (s : Vm) : Vm := s.setMem (s.mem.setAll x)

def Exec.setAll (x : Nat → Bytes) (s : Exec) : Exec := s.modMem fun m => m.setAll x

/-- The states differ in nothing but what pages hold. -/
abbrev PageMem.OnlyData : PageMem → PageMem → Prop := Overwritten PageMem.setAll
abbrev Vm.OnlyData : Vm → Vm → Prop := Overwritten Vm.setAll
abbrev Exec.OnlyData : Exec → Exec → Prop := Overwritten Exec.setAll

/-! ## Pages and their tables -/

theorem allocPage_blind : Blind PageMem.OnlyData allocPage := by
  refine fun s t ⟨x, ht⟩ => ?_
  subst ht
  rw [allocPage, Proc.get_bind, Proc.get_bind, show (s.setAll x).pick (s.setAll x).ticks = s.pick s.ticks from rfl]
  cases s.pick s.ticks with
  | none => exact .ok (s := s.tick) none ⟨x, rfl⟩
  | some p =>
    show Outcome.Alike _ ((if p ∈ s.free then _ else _ : MemM (Option Nat)) s) ((if p ∈ s.free then _ else _ : MemM (Option Nat)) _)
    split
    · exact .ok (s := s.take p) (some p) ⟨x, rfl⟩
    · exact .ok (s := s.tick) none ⟨x, rfl⟩

theorem freePage_blind (p : Nat) : Blind PageMem.OnlyData (freePage p) := Blind.modify fun _ x => ⟨x, rfl⟩

theorem getTable_blind (t i : Nat) (create : Bool) : Blind PageMem.OnlyData (getTable t i create) := by
  refine Blind.get (fun _ _ => rfl) fun s => .ite (.of_pure _) (.ite (.of_pure _) ?_)
  refine allocPage_blind.bind fun page => ?_
  cases page with
  | none => exact .of_pure none
  | some page =>
    refine Blind.bind ?_ fun _ => .of_pure _
    exact Blind.modify fun _ x => ⟨x, rfl⟩

theorem getPte_blind (pgdir la : Nat) (create : Bool) : Blind PageMem.OnlyData (getPte pgdir la create) := by
  refine (getTable_blind pgdir (pdx1 la) create).bind fun pd0 => ?_
  cases pd0 with
  | none => exact .of_pure none
  | some pd0 =>
    refine (getTable_blind pd0 (pdx0 la) create).bind fun pt => ?_
    cases pt with
    | none => exact .of_pure none
    | some pt => exact .of_pure _

theorem pageRemovePte_blind (t i : Nat) : Blind PageMem.OnlyData (pageRemovePte t i) := by
  refine Blind.get (fun _ _ => rfl) fun s => .ite (Blind.bind ?_ fun _ => ?_) (.of_pure ())
  · exact Blind.modify fun _ x => ⟨x, rfl⟩
  · refine Blind.get (fun _ _ => rfl) fun s' => ?_
    dsimp only
    refine .ite ((freePage_blind _).bind fun _ => ?_) ?_ <;> exact Blind.modify fun _ x => ⟨x, rfl⟩

theorem pageInsertAt_blind (page t i : Nat) (perm : Perm) : Blind PageMem.OnlyData (pageInsertAt page t i perm) := by
  have hset : Blind PageMem.OnlyData (Proc.modify fun s => s.setPte t i (pteCreate page perm) : MemM Unit) :=
    Blind.modify fun _ x => ⟨x, rfl⟩
  refine Blind.bind (Blind.modify fun _ x => ⟨x, rfl⟩) fun _ => Blind.get (fun _ _ => rfl) fun s => ?_
  dsimp only
  refine .ite (.ite (Blind.bind ?_ fun _ => hset) ((pageRemovePte_blind t i).bind fun _ => hset)) hset
  exact Blind.modify fun _ x => ⟨x, rfl⟩

theorem pageInsert_blind (pgdir page la : Nat) (perm : Perm) : Blind PageMem.OnlyData (pageInsert pgdir page la perm) := by
  refine (getPte_blind pgdir la true).bind fun ptep => ?_
  cases ptep with
  | none => exact .of_fail _
  | some x => exact pageInsertAt_blind page x.1 x.2 perm

theorem pgdirAllocPage_blind (pgdir la : Nat) (perm : Perm) : Blind PageMem.OnlyData (pgdirAllocPage pgdir la perm) := by
  refine allocPage_blind.bind fun page => ?_
  cases page with
  | none => exact .of_pure none
  | some page =>
    refine (pageInsert_blind pgdir page la perm).attempt.bind fun ret => ?_
    cases ret with
    | error e => exact (freePage_blind page).bind fun _ => .of_pure none
    | ok _ => exact Blind.get (fun _ _ => rfl) fun s => (Blind.of_check _ _).bind fun _ => .of_pure _

theorem setupPgdir_blind (boot : Nat → Pte) : Blind PageMem.OnlyData (setupPgdir boot) := by
  refine allocPage_blind.bind fun page => ?_
  cases page with
  | none => exact .of_fail _
  | some page =>
    refine Blind.bind ?_ fun _ => .of_pure page
    exact Blind.modify fun _ x => ⟨x, rfl⟩

/-! ## Areas -/

theorem inMem_blind {x : MemM α} (hx : Blind PageMem.OnlyData x) : Blind Vm.OnlyData (inMem x) := by
  refine hx.zoom ?_ ?_
  · rintro s _ ⟨x, rfl⟩
    exact ⟨x, rfl⟩
  · rintro s _ a _ ⟨x, rfl⟩ ⟨y, rfl⟩
    exact ⟨y, rfl⟩

theorem areas_onlyData : Areas Vm.OnlyData := by
  refine ⟨?_, ?_, ?_, ?_, ?_, ?_, ?_⟩
  · rintro s _ ⟨x, rfl⟩
    rfl
  · rintro s _ ⟨x, rfl⟩
    rfl
  · rintro s _ ⟨x, rfl⟩
    rfl
  · rintro s _ m a ⟨x, rfl⟩
    exact ⟨x, rfl⟩
  · rintro s _ ⟨x, rfl⟩
    exact ⟨x, rfl⟩
  · rintro s _ p ⟨x, rfl⟩
    exact ⟨x, rfl⟩
  · rintro s _ p ⟨x, rfl⟩
    exact ⟨x, rfl⟩

/-! ## Loading -/

theorem inVm_blind {x : VmM α} (hx : Blind Vm.OnlyData x) : Blind Exec.OnlyData (inVm x) := by
  refine fun s t ⟨y, ht⟩ => ?_
  subst ht
  have hp := hx s.vm (s.vm.setAll y) ⟨y, rfl⟩
  rw [inVm, inVm, show (s.setAll y).vm = s.vm.setAll y from rfl]
  generalize x s.vm = o, x (s.vm.setAll y) = o' at hp
  cases hp with
  | @ok a v _ hr =>
    obtain ⟨z, rfl⟩ := hr
    have hr : Exec.OnlyData { s with vm := v } { s.setAll y with vm := v.setAll z } := ⟨z, rfl⟩
    exact .ok a hr
  | @err e v _ hr =>
    obtain ⟨z, rfl⟩ := hr
    have hr : Exec.OnlyData { s with vm := v } { s.setAll y with vm := v.setAll z } := ⟨z, rfl⟩
    exact .err e hr
  | panic p => exact Outcome.Alike.panic (ExecPanic.mm p)

theorem loader_onlyData : Loader Exec.OnlyData := by
  refine ⟨?_, ?_, fun _ _ _ => ?_, fun _ _ => ?_, fun _ _ _ _ => ?_, fun _ _ _ _ _ => ?_, fun _ _ _ _ => ?_⟩
  · rintro s _ ⟨x, rfl⟩
    rfl
  · rintro s _ m ⟨x, rfl⟩
    rfl
  · exact inVm_blind (inMem_blind (pgdirAllocPage_blind _ _ _))
  · exact inVm_blind (inMem_blind (getPte_blind _ _ _))
  · exact inVm_blind (areas_onlyData.mmMap _ _ _ _)
  · exact Blind.modify fun _ _ => ⟨_, rfl⟩
  · exact Blind.modify fun _ x => ⟨x, rfl⟩

/-- **`load_icode` does not look at what pages hold.** -/
theorem loadIcode_blind (boot : Nat → Pte) (file : ElfFile) (argc : Nat) (kargv : Nat → Bytes) :
    Blind Exec.OnlyData (loadIcode boot file argc kargv) := by
  have hbad : ∀ m, Blind Exec.OnlyData (badMm m) := by
    intro m
    refine (inVm_blind (areas_onlyData.mmDestroy m)).bind fun _ => ?_
    exact Blind.modify fun _ x => ⟨x, rfl⟩
  have hnew : Blind Exec.OnlyData (inVm (mmNew boot)) := inVm_blind (areas_onlyData.mmNew (inMem_blind (setupPgdir_blind boot)))
  exact (Blind.of_check _ _).bind fun _ => hnew.bind fun m => (loader_onlyData.loadInto file argc kargv m).onErr (hbad m)

end Ucore
