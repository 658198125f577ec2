import Ucore.Lib.TwoRuns
import Ucore.Process.LoadIcode

/-!
# `Process.Correctness.LoadWalk` — through `load_icode`, for any relation

Two states are related by `R`, and the calls of `pmm.c` and `vmm.c` that `load_icode` makes are blind to what is different. Then
`load_icode` is: it looks at nothing else than the directories and the tables (`Loader`), and `vmm.c` looks at nothing else than
the areas and what `kmalloc` has (`Areas`).
-/

namespace Ucore

variable {α : Type} {V : Vm → Vm → Prop} {R : Exec → Exec → Prop}

/-! ## Areas -/

/-- The areas are the same, and so are the blocks of `kmalloc`; and a step of the one is a step of the other. -/
structure Areas (V : Vm → Vm → Prop) : Prop where
  mm : ∀ s t, V s t → t.mm = s.mm
  live : ∀ s t, V s t → t.live = s.live
  kpick : ∀ s t, V s t → t.kpick t.kticks = s.kpick s.kticks
  setMm : ∀ s t m x, V s t → V (s.setMm m x) (t.setMm m x)
  ktick : ∀ s t, V s t → V s.ktick t.ktick
  ktake : ∀ s t p, V s t → V (s.ktake p) (t.ktake p)
  kgive : ∀ s t p, V s t → V (s.kgive p) (t.kgive p)

namespace Areas

theorem kmalloc (h : Areas V) : Blind V kmalloc := by
  intro s t hst
  rw [Ucore.kmalloc, Proc.get_bind, Proc.get_bind, h.kpick s t hst]
  cases s.kpick s.kticks with
  | none => exact .ok none (h.ktick s t hst)
  | some p =>
    dsimp only
    rw [h.live s t hst]
    split
    · exact .ok none (h.ktick s t hst)
    · exact .ok (some p) (h.ktake s t p hst)

theorem mmDestroy (h : Areas V) (m : Nat) : Blind V (mmDestroy m) := by
  have hfree : ∀ p, Blind V (kfree p) := fun p => .of_modify fun s t hst => h.kgive s t p hst
  have hvmas : ∀ vs, Blind V (kfreeVmas vs) := by
    intro vs
    induction vs with
    | nil => exact .of_pure ()
    | cons v vs ih => exact (hfree v.obj).bind fun _ => ih
  refine Blind.of_get (fun s t hst => by rw [h.mm s t hst]) fun s => ?_
  exact (Blind.of_check _ _).bind fun _ => (hvmas _).bind fun _ => hfree m

theorem mmCreate (h : Areas V) : Blind V mmCreate := by
  refine h.kmalloc.bind fun mm => ?_
  cases mm with
  | none => exact .of_pure none
  | some mm => exact Blind.bind (.of_modify fun s t hst => h.setMm s t mm _ hst) fun _ => .of_pure _

theorem findVma (h : Areas V) (m addr : Nat) : Blind V (findVma m addr) := by
  intro s t hst
  rw [Ucore.findVma, Proc.get_bind, Proc.get_bind, h.mm s t hst]
  cases (s.mm m).findVma addr with
  | none => exact .ok none hst
  | some v => exact .ok (some v) (h.setMm s t m _ hst)

theorem insertVmaStruct (h : Areas V) (m : Nat) (v : Vma) : Blind V (insertVmaStruct m v) := by
  have hcheck : ∀ a b, Blind V (checkVmaOverlap a b) := fun a b =>
    (Blind.of_check _ _).bind fun _ => (Blind.of_check _ _).bind fun _ => .of_check _ _
  have hprev : ∀ x, Blind V (checkPrev x v) := by
    intro x
    cases x with
    | none => exact .of_pure ()
    | some w => exact hcheck w v
  have hnext : ∀ x, Blind V (checkNext v x) := by
    intro x
    cases x with
    | none => exact .of_pure ()
    | some w => exact hcheck v w
  refine (Blind.of_check _ _).bind fun _ => ?_
  -- the state that is put back is the one from before the checks
  intro s t hst
  rw [Proc.get_bind, Proc.get_bind, h.mm s t hst]
  refine (hprev _ s t hst).bind fun _ s1 t1 h1 => (hnext _ s1 t1 h1).bind fun _ _ _ _ => ?_
  exact .ok () (h.setMm s t m _ hst)

theorem mmMap (h : Areas V) (m addr len : Nat) (flags : VmFlags) : Blind V (mmMap m addr len flags) := by
  have hins : ∀ start stop, Blind V (mmMapInsert m start stop flags) := by
    intro start stop
    have hcreate : Blind V (vmaCreate start stop flags) := by
      refine h.kmalloc.bind fun vma => ?_
      cases vma with
      | none => exact .of_pure none
      | some vma => exact .of_pure _
    refine hcreate.bind fun vma => ?_
    cases vma with
    | none => exact .of_fail _
    | some vma => exact h.insertVmaStruct m vma
  refine .ite (.of_fail _) ((h.findVma m _).bind fun vma => ?_)
  cases vma with
  | none => exact hins _ _
  | some vma => exact .ite (.of_fail _) (hins _ _)

theorem mmNew (h : Areas V) {boot : Nat → Pte} (hboot : Blind V (inMem (setupPgdir boot))) : Blind V (mmNew boot) := by
  refine h.mmCreate.bind fun mm => ?_
  cases mm with
  | none => exact .of_fail _
  | some mm =>
    have hpgdir : Blind V (mmSetupPgdir boot mm) := by
      refine hboot.bind fun pgdir => .of_modify fun s t hst => ?_
      rw [h.mm s t hst]
      exact h.setMm s t mm _ hst
    refine hpgdir.attempt.bind fun ret => ?_
    cases ret with
    | error e => exact (h.mmDestroy mm).bind fun _ => .of_fail _
    | ok _ => exact .of_pure mm

end Areas

/-! ## Loading -/

/-- The tables and the directories are the same, and what is called is blind to the rest. -/
structure Loader (R : Exec → Exec → Prop) : Prop where
  table : ∀ s t, R s t → t.vm.mem.table = s.vm.mem.table
  pgdir : ∀ s t m, R s t → (t.vm.mm m).pgdir = (s.vm.mm m).pgdir
  alloc : ∀ pgdir la perm, Blind R (inVm (inMem (pgdirAllocPage pgdir la perm)))
  find : ∀ pgdir la, Blind R (inVm (inMem (getPte pgdir la false)))
  map : ∀ m addr len flags, Blind R (inVm (mmMap m addr len flags))
  write : ∀ page off src start len, Blind R (copyToPage page off src start len)
  switch : ∀ m argc sp entry, Blind R (Proc.modify (switchTo m argc sp entry) : ExecM Unit)

theorem readHdr_blind (file : ElfFile) (hdr : Bytes → α) (len offset : Nat) : Blind R (readHdr file hdr len offset) :=
  .ite (.of_fail _) (.of_pure _)

namespace Loader

variable (h : Loader R)

include h

theorem loadFile (file : ElfFile) (ph : ProgHdr) (pgdir : Nat) :
    ∀ fuel start la, Blind R (loadFile file ph pgdir fuel start la) := by
  intro fuel
  induction fuel with
  | zero => exact fun _ _ => .of_stop _
  | succ fuel ih =>
    refine fun start la => .ite ((h.alloc pgdir la ph.perm).bind fun page => ?_) (.of_pure _)
    cases page with
    | none => exact .of_fail _
    | some page => exact (h.write _ _ _ _ _).bind fun _ => .ite (.of_fail _) (ih _ _)

theorem zeroTail (pgdir start : Nat) : Blind R (zeroTail pgdir start) := by
  refine (h.find pgdir start).bind fun ptep => ?_
  cases ptep with
  | none => exact .of_pure ()
  | some x =>
    refine Blind.of_get (fun s t hst => by rw [h.table s t hst]) fun s => ?_
    exact .ite (h.write _ _ _ _ _) (.of_pure ())

theorem zeroPages (ph : ProgHdr) (pgdir : Nat) : ∀ fuel start, Blind R (zeroPages ph pgdir fuel start) := by
  intro fuel
  induction fuel with
  | zero => exact fun _ => .of_stop _
  | succ fuel ih =>
    refine fun start => .ite ((h.alloc pgdir start ph.perm).bind fun page => ?_) (.of_pure ())
    cases page with
    | none => exact .of_fail _
    | some page => exact (h.write _ _ _ _ _).bind fun _ => ih _

theorem loadSegment (file : ElfFile) (m : Nat) (ph : ProgHdr) : Blind R (loadSegment file m ph) := by
  refine .ite (.of_fail _) ((h.map m _ _ _).bind fun _ => ?_)
  refine Blind.of_get (fun s t hst => by rw [h.pgdir s t m hst]) fun s => ?_
  refine (h.loadFile file ph _ _ _ _).bind fun start => ?_
  refine .ite (.ite ?_ (h.zeroPages ph _ _ _)) (.of_pure ())
  exact (h.zeroTail _ start).bind fun _ => h.zeroPages ph _ _ _

theorem loadSegments (file : ElfFile) (m phoff : Nat) : ∀ n i, Blind R (loadSegments file m phoff n i) := by
  intro n
  induction n with
  | zero => exact fun _ => .of_pure ()
  | succ n ih =>
    refine fun i => (readHdr_blind file _ _ _).bind fun ph => .ite (ih _) ?_
    exact (h.loadSegment file m ph).bind fun _ => ih _

theorem setupStack (m : Nat) : Blind R (setupStack m) := by
  have hpage : ∀ pgdir k, Blind R (stackPage pgdir k) := by
    refine fun pgdir k => (h.alloc _ _ _).bind fun page => ?_
    cases page with
    | none => exact .of_stop _
    | some page => exact .of_pure ()
  refine (h.map m _ _ _).bind fun _ => Blind.of_get (fun s t hst => by rw [h.pgdir s t m hst]) fun s => ?_
  exact (hpage _ 1).bind fun _ => (hpage _ 2).bind fun _ => (hpage _ 3).bind fun _ => hpage _ 4

theorem pageAt (pgdir la : Nat) : Blind R (pageAt pgdir la) := by
  refine (h.find pgdir la).bind fun ptep => ?_
  cases ptep with
  | none => exact .of_stop _
  | some x =>
    refine Blind.of_get (fun s t hst => by rw [h.table s t hst]) fun s => ?_
    exact .ite (.of_pure _) (.of_stop _)

theorem pushChunks (pgdir : Nat) (str : Bytes) (base stop : Nat) :
    ∀ fuel cur, Blind R (pushChunks pgdir str base stop fuel cur) := by
  intro fuel
  induction fuel with
  | zero => exact fun _ => .of_stop _
  | succ fuel ih =>
    refine fun cur => .ite ((h.pageAt pgdir cur).bind fun page => ?_) (.of_pure ())
    exact (h.write _ _ _ _ _).bind fun _ => ih _

theorem pushStrings (pgdir : Nat) (kargv : Nat → Bytes) : ∀ n i stacktop, Blind R (pushStrings pgdir kargv n i stacktop) := by
  intro n
  induction n with
  | zero => exact fun _ _ => .of_pure _
  | succ n ih => exact fun i stacktop => (h.pushChunks pgdir _ _ _ _ _).bind fun _ => (ih _ _).bind fun _ => .of_pure _

theorem pushArgv (pgdir : Nat) (argv : List Nat) : ∀ la, Blind R (pushArgv pgdir argv la) := by
  have hword : ∀ la v, Blind R (pushWord pgdir la v) := fun la v =>
    (h.pageAt pgdir la).bind fun page => h.write _ _ _ _ _
  induction argv with
  | nil => exact fun la => hword la 0
  | cons v argv ih => exact fun la => (hword la v).bind fun _ => ih _

/-- **`load_icode`**, once there is an address space. -/
theorem loadInto (file : ElfFile) (argc : Nat) (kargv : Nat → Bytes) (m : Nat) : Blind R (loadInto file argc kargv m) := by
  refine (readHdr_blind file _ _ _).bind fun elf => .ite (.of_fail _) ((h.loadSegments file m _ _ _).bind fun _ => ?_)
  refine (h.setupStack m).bind fun _ => Blind.of_get (fun s t hst => by rw [h.pgdir s t m hst]) fun s => ?_
  exact (h.pushStrings _ kargv _ _ _).bind fun top => (h.pushArgv _ _ _).bind fun _ => h.switch _ _ _ _

end Loader

end Ucore
