import Ucore.Mm.Correctness.PageCells
import Ucore.Process.Correctness.CowRights

/-!
# `Mm.Correctness.MemSteps` — the steps that both kernels take

The invariant of both kernels: a page that a process may write to is mapped by no other one. Under it, all steps but forks and
page faults are steps of processes with memories of their own.
-/

namespace Ucore

open PageMem

def Vm.cells (own : Pte → Bool) (M : Finset Nat) (s : Vm) : Cells (Nat × Nat) Nat PageBytes := s.mem.cells own (s.dirs M)

/-- **The invariant.** The pages in `L` have been lost when processes ended. -/
structure MemInv (own : Pte → Bool) (L : Nat → Prop) (a : VmState) : Prop where
  inv : a.1.Inv a.2 L
  exclusive : (a.1.cells own a.2).Exclusive

variable {own : Pte → Bool} {s s' : Vm} {M M' : Finset Nat} {m m' n addr : Nat} {k : Nat × Nat} {mem : PageMem} {v : Vma} {L : Nat → Prop}

/-! ## What is seen -/

theorem mem_places_dirs (hm : m ∈ M) (hn : n < userPages) : ((s.mm m).pgdir, n) ∈ places (s.dirs M) :=
  mem_places.mpr ⟨Vm.mem_dirs hm, hn⟩

/-- A place belongs to a process. -/
theorem exists_place (hk : k ∈ places (s.dirs M)) : ∃ m ∈ M, k.2 < userPages ∧ k = ((s.mm m).pgdir, k.2) := by
  obtain ⟨hd, hn⟩ := mem_places.mp hk
  obtain ⟨m, hm, hpd⟩ := Finset.mem_image.mp hd
  exact ⟨m, hm, hn, Prod.ext hpd.symm rfl⟩

theorem Vm.cells_cell (hm : m ∈ M) (hn : n < userPages) : (s.cells own M).cell ((s.mm m).pgdir, n) = target (s.pte m n) :=
  PageMem.cells_cell (Vm.mem_dirs hm) hn

theorem Vm.cells_own (hm : m ∈ M) (hn : n < userPages) : (s.cells own M).own ((s.mm m).pgdir, n) = own (s.pte m n) :=
  PageMem.cells_own (Vm.mem_dirs hm) hn

theorem seen_in (own : Pte → Bool) (hm : m ∈ M) (hn : n < userPages) :
    seen (s, M) m n = (s.cells own M).view ((s.mm m).pgdir, n) := by
  rw [Vm.cells, cells_view (Vm.mem_dirs hm) hn]
  exact if_pos ⟨hm, hn⟩

theorem seen_out (h : ¬ (m ∈ M ∧ n < userPages)) : seen (s, M) m n = none := if_neg h

theorem mapped_iff : s.mem.maps (s.mm m).pgdir n ≠ none ↔ (s.pte m n).v = true := by
  show target (s.pte m n) ≠ none ↔ _
  rw [target]
  split
  · next hv => simp [hv]
  · next hv => simp [hv]

theorem seen_some_iff : (seen (s, M) m n).isSome = true ↔ m ∈ M ∧ n < userPages ∧ (s.pte m n).v = true := by
  by_cases h : m ∈ M ∧ n < userPages
  · rw [seen, if_pos h, PageMem.pageAt, Option.isSome_map, maps]
    constructor
    · intro hsome
      refine ⟨h.1, h.2, ?_⟩
      by_contra hv
      have hleaf : ¬ (s.mem.leaf (s.mm m).pgdir n).v = true := hv
      simp [hleaf] at hsome
    · rintro ⟨-, -, hv⟩
      have hleaf : (s.mem.leaf (s.mm m).pgdir n).v = true := hv
      simp [hleaf]
  · rw [seen_out h]
    constructor
    · intro hsome
      cases hsome
    · rintro ⟨hm, hn, -⟩
      exact absurd ⟨hm, hn⟩ h

theorem seen_eq_none (h : (s.pte m n).v = false) : seen (s, M) m n = none := by
  by_contra hne
  have hv := (seen_some_iff.mp (Option.isSome_iff_ne_none.mpr hne)).2.2
  rw [h] at hv
  exact Bool.noConfusion hv

/-- A mapped page is seen. -/
theorem seen_mapped (hm : m ∈ M) (hn : n < userPages) (hv : (s.pte m n).v = true) :
    seen (s, M) m n = some (pageBytes (s.mem.data (s.pte m n).ppn)) := by
  have hmaps : s.mem.maps (s.mm m).pgdir n = some (s.pte m n).ppn := maps_eq_some.mpr ⟨hv, rfl⟩
  rw [seen, if_pos ⟨hm, hn⟩, PageMem.pageAt, hmaps]
  rfl

/-- The same pages are seen. -/
theorem seen_congr (own : Pte → Bool) (hpgdir : ∀ m ∈ M, (s'.mm m).pgdir = (s.mm m).pgdir) (hview : (s'.cells own M).view = (s.cells own M).view) :
    seen (s', M) = seen (s, M) := by
  funext m n
  by_cases h : m ∈ M ∧ n < userPages
  · rw [seen_in own h.1 h.2, seen_in own h.1 h.2, hview, hpgdir m h.1]
  · rw [seen_out h, seen_out h]

/-- One page is seen with another content. -/
theorem seen_set (own : Pte → Bool) {o : Option PageBytes} (hinv : s.Inv M L) (hm : m ∈ M) (hn : n < userPages)
    (hpgdir : ∀ m ∈ M, (s'.mm m).pgdir = (s.mm m).pgdir)
    (hview : (s'.cells own M).view = Function.update (s.cells own M).view ((s.mm m).pgdir, n) o) :
    seen (s', M) = (seen (s, M)).set m n o := by
  funext m' n'
  rw [Memories.set]
  by_cases hm' : m' = m
  · subst hm'
    rw [Function.update_self]
    by_cases hn' : n' = n
    · subst hn'
      rw [Function.update_self, seen_in own hm hn, hview, hpgdir m' hm, Function.update_self]
    · rw [Function.update_of_ne hn']
      by_cases hlt : n' < userPages
      · rw [seen_in own hm hlt, seen_in own hm hlt, hview, hpgdir m' hm, Function.update_of_ne]
        exact fun heq => hn' (Prod.mk.inj heq).2
      · rw [seen_out fun h => hlt h.2, seen_out fun h => hlt h.2]
  · rw [Function.update_of_ne hm']
    by_cases h : m' ∈ M ∧ n' < userPages
    · rw [seen_in own h.1 h.2, seen_in own h.1 h.2, hview, hpgdir m' h.1, Function.update_of_ne]
      exact fun heq => hm' (hinv.inj m' h.1 m hm (Prod.mk.inj heq).1)
    · rw [seen_out h, seen_out h]

/-! ## Steps that leave the pages alone -/

/-- **Nothing has happened to the pages** of the processes in `M`, and others have none. -/
theorem MemInv.of_pte (h : MemInv own L (s, M)) (hinv : s'.Inv M' L) (hM : M ⊆ M')
    (hpgdir : ∀ m ∈ M, (s'.mm m).pgdir = (s.mm m).pgdir) (hpte : ∀ m ∈ M, ∀ n, n < userPages → s'.pte m n = s.pte m n)
    (hnew : ∀ m ∈ M', m ∉ M → ∀ n, n < userPages → ¬ (s'.pte m n).v = true) (hdata : s'.mem.data = s.mem.data) :
    MemInv own L (s', M') ∧ seen (s', M') = seen (s, M) := by
  constructor
  · refine ⟨hinv, h.exclusive.share fun k => ?_⟩
    by_cases hk : k ∈ places (s'.dirs M')
    · obtain ⟨m, hm, hn, heq⟩ := exists_place hk
      rw [heq]
      by_cases hold : m ∈ M
      · right
        left
        rw [Vm.cells_cell hm hn, Vm.cells_own hm hn, hpte m hold _ hn, hpgdir m hold, Vm.cells_cell hold hn, Vm.cells_own hold hn]
        exact ⟨rfl, id⟩
      · left
        rw [Vm.cells_cell hm hn, target, if_neg (hnew m hm hold _ hn)]
    · exact Or.inl (cells_out hk)
  · funext m n
    by_cases hold : m ∈ M ∧ n < userPages
    · rw [seen, seen, if_pos hold, if_pos ⟨hM hold.1, hold.2⟩]
      have hsame : target (s'.pte m n) = target (s.pte m n) := by rw [hpte m hold.1 n hold.2]
      have hmaps : s'.mem.maps (s'.mm m).pgdir n = s.mem.maps (s.mm m).pgdir n := hsame
      simp [PageMem.pageAt, hmaps, hdata]
    · rw [seen_out hold]
      by_cases hnow : m ∈ M' ∧ n < userPages
      · have hout : m ∉ M := fun hm => hold ⟨hm, hnow.2⟩
        exact seen_eq_none (Bool.eq_false_iff.mpr (hnew m hnow.1 hout n hnow.2))
      · exact seen_out hnow

/-- `mm_create` and `setup_pgdir` map no page. -/
theorem MemInv.create {boot : Nat → Pte} (h : MemInv own L (s, M)) (hboot : ∀ i < 2, (boot i).v = false) :
    (mmNew boot s).Meets (fun m s' => MemInv own L (s', insert m M) ∧ seen (s', insert m M) = seen (s, M))
      (fun _ s' => MemInv own L (s', M) ∧ seen (s', M) = seen (s, M)) fun _ => False := by
  have hinv := mmNew_inv h.inv hboot
  have hpages := Cow.mmNew_pages h.inv hboot
  have hdata : (mmNew boot s).Leaves fun s' => s'.mem.data = s.mem.data := by
    rcases mmNew_cases boot s with ⟨-, hrun | ⟨m, -, hrun⟩⟩ | ⟨-, m, p, -, -, hrun⟩
    · rw [hrun]
      rfl
    · rw [hrun]
      rfl
    · rw [hrun]
      rfl
  cases hrun : mmNew boot s with
  | ok m s' =>
    obtain ⟨hnone, hwider, hpte⟩ := hpages.of_ok hrun
    apply h.of_pte (hinv.of_ok hrun) (Finset.subset_insert m M) hwider.pgdir hpte ?_ (hdata.of_ok hrun)
    intro m' hm' hout n hn
    obtain rfl := (Finset.mem_insert.mp hm').resolve_right hout
    exact hnone n hn
  | err e s' =>
    obtain ⟨hwider, hpte⟩ := hpages.of_err hrun
    exact h.of_pte (hinv.of_err hrun) (Finset.Subset.refl M) hwider.pgdir hpte (fun m hm hout => absurd hm hout) (hdata.of_err hrun)
  | panic q => exact (hinv.of_panic hrun).elim

/-- `mm_map` looks at areas only. -/
theorem MemInv.map {len : Nat} {flags : VmFlags} (h : MemInv own L (s, M)) (hend : (mmMap m addr len flags s).EndsIn s') :
    MemInv own L (s', M) ∧ seen (s', M) = seen (s, M) := by
  have hinv := (mmMap_inv h.inv m addr len flags).endsIn hend
  obtain ⟨hmem, hwider⟩ := (Cow.mmMapRange_areas s M m _ _ flags).endsIn hend
  apply h.of_pte hinv (Finset.Subset.refl M) hwider.pgdir ?_ (fun m hm hout => absurd hm hout) (by rw [hmem])
  intro m' hm' n _
  exact Vm.pte_congr hmem (hwider.pgdir m' hm')

/-! ## New pages -/

/-- The places are those of the same processes. -/
theorem Vm.setMem_cells (s : Vm) (mem : PageMem) : (s.setMem mem).cells own M = mem.cells own (s.dirs M) := rfl

/-- **The loader** gets a page that nobody uses, and fills it. -/
theorem MemInv.alloc {p : Nat} {perm : Perm} (h : MemInv own L (s, M)) (hm : m ∈ M) (hv : v ∈ (s.mm m).mmapList)
    (hin : v.Contains addr) (x : Bytes) (hrun : inMem (pgdirAllocPage (s.mm m).pgdir addr perm) s = .ok (some p) s') :
    MemInv own L (s'.setMem (s'.mem.setData p x), M) ∧
      seen (s'.setMem (s'.mem.setData p x), M) = (seen (s, M)).set m (addr / pgsize) (some (pageBytes x)) := by
  have hla := ((h.inv.wf m hm).ok v hv).lt_userTop hin
  have hinv := (allocAt_inv h.inv hm hv hin perm).of_ok hrun
  obtain ⟨mem, hmem, rfl⟩ := inMem_eq_ok.mp hrun
  obtain ⟨hunused, hcells⟩ := (pgdirAllocPage_cells h.inv.sound (Vm.mem_dirs hm) hla own perm).of_ok hmem
  have hnow : ((s.setMem mem).setMem (mem.setData p x)).cells own M =
      ((s.cells own M).store p (pageBytes x)).put ((s.mm m).pgdir, addr / pgsize) (some p) (own (pteCreate p perm)) := by
    rw [Vm.setMem_cells, cells_setData]
    show (mem.cells own (s.dirs M)).store p _ = _
    rw [hcells]
    rfl
  have hsound : Sound (mem.setData p x) (s.dirs M) L := hinv.sound.of_free rfl (fun _ _ _ => rfl) fun _ hq => .inl hq
  refine ⟨⟨hinv.remem hsound fun _ _ _ _ hmaps => .inl hmaps, ?_⟩, ?_⟩
  · show (((s.setMem mem).setMem (mem.setData p x)).cells own M).Exclusive
    rw [hnow]
    exact (h.exclusive.store p _).put_unused (hunused.store p _) _ _
  · apply seen_set own h.inv hm (page_lt hla)
    · exact fun _ _ => rfl
    show (((s.setMem mem).setMem (mem.setData p x)).cells own M).view = _
    have hold : ((s.cells own M).store p (pageBytes x)).view = (s.cells own M).view := hunused.view_store _
    rw [hnow, Cells.view_put, hold]
    simp

/-- No page is given out, and nothing has changed. -/
theorem MemInv.noAlloc {perm : Perm} (h : MemInv own L (s, M)) (hm : m ∈ M) (hv : v ∈ (s.mm m).mmapList)
    (hin : v.Contains addr) (hrun : inMem (pgdirAllocPage (s.mm m).pgdir addr perm) s = .ok none s') :
    MemInv own L (s', M) ∧ seen (s', M) = seen (s, M) := by
  have hla := ((h.inv.wf m hm).ok v hv).lt_userTop hin
  have hinv := (allocAt_inv h.inv hm hv hin perm).of_ok hrun
  obtain ⟨mem, hmem, rfl⟩ := inMem_eq_ok.mp hrun
  have hcells : mem.cells own (s.dirs M) = s.cells own M :=
    (pgdirAllocPage_cells h.inv.sound (Vm.mem_dirs hm) hla own perm).of_ok hmem
  refine ⟨⟨hinv, ?_⟩, ?_⟩
  · show (mem.cells own (s.dirs M)).Exclusive
    rw [hcells]
    exact h.exclusive
  · apply seen_congr own
    · exact fun _ _ => rfl
    rw [Vm.setMem_cells, hcells]

/-! ## Reading and writing -/

theorem pageBytes_update (x : Bytes) (addr : Nat) (byte : UInt8) :
    pageBytes (Function.update x (addr % pgsize) byte) = Function.update (pageBytes x) (pgoff addr) byte := by
  funext i
  by_cases hi : i = pgoff addr
  · subst hi
    simp [pageBytes, pgoff]
  · have hne : (i : Nat) ≠ addr % pgsize := fun heq => hi (Fin.ext heq)
    simp [pageBytes, hi, hne]

/-- **A write** goes to a page of one's own. -/
theorem MemInv.store (h : MemInv own L (s, M)) (hown : ∀ e : Pte, e.perm.w = true → own e = true) (hm : m ∈ M)
    (hmay : s.MayStore m addr) (byte : UInt8) :
    MemInv own L (s.storeByte m addr byte, M) ∧ seen (s.storeByte m addr byte, M) = (seen (s, M)).set m (addr / pgsize)
      (some (Function.update (pageBytes (s.mem.data (s.pte m (addr / pgsize)).ppn)) (pgoff addr) byte)) := by
  obtain ⟨hla, hv, hw, -⟩ := hmay
  have hn := page_lt hla
  have hnow : (s.storeByte m addr byte).cells own M = (s.cells own M).store (s.pte m (addr / pgsize)).ppn
      (Function.update (pageBytes (s.mem.data (s.pte m (addr / pgsize)).ppn)) (pgoff addr) byte) := by
    rw [← pageBytes_update]
    exact cells_setData s.mem (s.dirs M) _ _
  have hcell : (s.cells own M).cell ((s.mm m).pgdir, addr / pgsize) = some (s.pte m (addr / pgsize)).ppn := by
    rw [Vm.cells_cell hm hn, target, if_pos hv]
  have hmine : (s.cells own M).own ((s.mm m).pgdir, addr / pgsize) = true := by
    rw [Vm.cells_own hm hn]
    exact hown _ hw
  have hsound : Sound (s.storeByte m addr byte).mem (s.dirs M) L :=
    h.inv.sound.of_free rfl (fun _ _ _ => rfl) fun _ hq => .inl hq
  refine ⟨⟨h.inv.remem hsound fun _ _ _ _ hmaps => .inl hmaps, ?_⟩, ?_⟩
  · show ((s.storeByte m addr byte).cells own M).Exclusive
    rw [hnow]
    exact h.exclusive.store _ _
  · apply seen_set own h.inv hm hn
    · exact fun _ _ => rfl
    rw [hnow]
    exact h.exclusive.view_store hcell hmine _

/-! ## Giving up an address space -/

/-- `exit_mmap` and `put_pgdir`, on the pages. -/
theorem exitMem_gone (h : MemInv own L (s, M)) (hm : m ∈ M) (hrun : (exitMmap m >>= fun _ => putPgdir m : VmM Unit) s = .ok () s') :
    ∃ mem L', s' = s.setMem mem ∧ Sound mem ((s.dirs M).erase (s.mm m).pgdir) L' ∧
      (mem.cells own ((s.dirs M).erase (s.mm m).pgdir)).Exclusive ∧
      ∀ d ∈ s.dirs M, d ≠ (s.mm m).pgdir → ∀ n, n < userPages →
        (mem.cells own ((s.dirs M).erase (s.mm m).pgdir)).view (d, n) = (s.cells own M).view (d, n) := by
  have hd : (s.mm m).pgdir ∈ s.dirs M := Vm.mem_dirs hm
  obtain ⟨_, t₂, hloops, hput⟩ := Proc.bind_eq_ok.mp hrun
  rw [exitMmap, Proc.get_bind, Proc.check_bind_pos (h.inv.count m hm)] at hloops
  obtain ⟨_, t₁, hfirst, hsecond⟩ := Proc.bind_eq_ok.mp hloops
  obtain ⟨mem₁, hunmap, rfl⟩ := inMem_eq_ok.mp hfirst
  obtain ⟨mem₂, hexit, rfl⟩ := inMem_eq_ok.mp hsecond
  cases hput
  -- the first loop leaves no page
  have hcleared := (unmapVmas_cleared own hd (s.mm m).mmapList h.inv.sound).of_ok hunmap
  have hnone : ∀ n, n < userPages → (mem₁.cells own (s.dirs M)).view ((s.mm m).pgdir, n) = none := by
    intro n hn
    by_cases hin : ∃ v ∈ (s.mm m).mmapList, v.Has n
    · exact hcleared.gone n hin
    · rw [hcleared.kept ((s.mm m).pgdir, n) fun hcon => hin hcon.2]
      apply view_of_not_v
      exact h.inv.not_mapped hm hn fun w hw hwn => hin ⟨w, hw, hwn⟩
  have hblank : mem₁.Blank (s.mm m).pgdir := by
    intro n hn
    have hcell := Cells.view_eq_none.mp (hnone n hn)
    rw [PageMem.cells_cell hd hn] at hcell
    exact hcell
  -- the second one gives back tables
  obtain ⟨mem₃, hrun₃, hpasses⟩ := exitVmas_spec hd (s.mm m).mmapList hcleared.sound.toTrees hblank (h.inv.wf m hm).ok
  have hsame : mem₃ = mem₂ := by
    have heq := hrun₃.symm.trans hexit
    injection heq
  obtain ⟨X, G, hex, -⟩ := passes_spec hd (hsame ▸ hpasses) hcleared.sound.toTrees
  have hgb := (GivesBack.exitVmas _ _).ok hexit
  obtain ⟨hexclusive, hview⟩ := cells_gone hex hgb own
  refine ⟨mem₂.give (s.mm m).pgdir, _, rfl, sound_gone hex hcleared.sound hd hblank hgb, ?_, ?_⟩
  · exact hexclusive (hcleared.exclusive h.exclusive)
  · intro d hd' hne n hn
    rw [hview d hd' hne n hn]
    exact hcleared.kept (d, n) fun hcon => hne hcon.1

/-- **A process ends**, and the others keep their pages. -/
theorem MemInv.exit (h : MemInv own L (s, M)) (hm : m ∈ M) (hrun : (exitMmap m >>= fun _ => putPgdir m : VmM Unit) s = .ok () s') :
    (∃ L', MemInv own L' (s', M.erase m)) ∧ seen (s', M.erase m) = Function.update (seen (s, M)) m fun _ => none := by
  obtain ⟨mem, L', rfl, hsound, hexclusive, hview⟩ := exitMem_gone h hm hrun
  have hdirs : (s.setMem mem).dirs (M.erase m) = (s.dirs M).erase (s.mm m).pgdir := by
    ext d
    rw [Finset.mem_erase, Vm.dirs, Vm.dirs, Finset.mem_image, Finset.mem_image]
    constructor
    · rintro ⟨m', hm', rfl⟩
      obtain ⟨hne, hin⟩ := Finset.mem_erase.mp hm'
      exact ⟨fun heq => hne (h.inv.inj m' hin m hm heq), m', hin, rfl⟩
    · rintro ⟨hne, m', hin, rfl⟩
      exact ⟨m', Finset.mem_erase.mpr ⟨fun heq => hne (by rw [heq]), hin⟩, rfl⟩
  have hold : ∀ m' ∈ M.erase m, m' ∈ M ∧ (s.mm m').pgdir ≠ (s.mm m).pgdir := by
    intro m' hm'
    obtain ⟨hne, hin⟩ := Finset.mem_erase.mp hm'
    exact ⟨hin, fun heq => hne (h.inv.inj m' hin m hm heq)⟩
  have hsee : ∀ m' ∈ M.erase m, ∀ n, n < userPages → seen (s.setMem mem, M.erase m) m' n = seen (s, M) m' n := by
    intro m' hm' n hn
    obtain ⟨hin, hne⟩ := hold m' hm'
    rw [seen_in own hm' hn, seen_in own hin hn, Vm.cells, hdirs]
    exact hview _ (Vm.mem_dirs hin) hne n hn
  refine ⟨⟨L', ?_, ?_⟩, ?_⟩
  · refine ⟨?_, ?_, ?_, ?_, ?_, ?_⟩
    · rw [hdirs]
      exact hsound
    · intro m₁ hm₁ m₂ hm₂
      exact h.inv.inj m₁ (hold m₁ hm₁).1 m₂ (hold m₂ hm₂).1
    · exact fun m' hm' => h.inv.live m' (hold m' hm').1
    · exact fun m' hm' => h.inv.count m' (hold m' hm').1
    · exact fun m' hm' => h.inv.wf m' (hold m' hm').1
    · intro m' hm' n hn hmaps
      apply h.inv.inside m' (hold m' hm').1 n hn
      have hnow : (seen (s.setMem mem, M.erase m) m' n).isSome = true := seen_some_iff.mpr ⟨hm', hn, mapped_iff.mp hmaps⟩
      rw [hsee m' hm' n hn] at hnow
      exact mapped_iff.mpr (seen_some_iff.mp hnow).2.2
  · show (((s.setMem mem).mem).cells own ((s.setMem mem).dirs (M.erase m))).Exclusive
    rw [hdirs]
    exact hexclusive
  · funext m' n
    by_cases heq : m' = m
    · rw [heq, Function.update_self]
      exact seen_out fun hcon => (Finset.mem_erase.mp hcon.1).1 rfl
    · rw [Function.update_of_ne heq]
      by_cases hin : m' ∈ M ∧ n < userPages
      · exact hsee m' (Finset.mem_erase.mpr ⟨heq, hin.1⟩) n hin.2
      · rw [seen_out hin]
        exact seen_out fun hcon => hin ⟨Finset.mem_of_mem_erase hcon.1, hcon.2⟩

/-! ## A kernel -/

/-- A fault on a page that is there is a write to a page of which there is no copy yet. -/
def MemEvent.Served (a : VmState) : MemEvent → Prop
  | .fault m addr _ => (a.1.pte m (addr / pgsize)).v = false ∨ Cow.CopyFault a.1 m addr
  | _               => True

/-- **A fork copies, and a page fault is not noticed**, as far as the processes see. -/
structure Implements (own : Pte → Bool) (fork : Nat → Nat → VmM Unit) (pgfault : Option (Nat → Nat → Nat → VmM Int)) : Prop where
  owner : ∀ e : Pte, e.perm.w = true → own e = true
  fork : ∀ {s : Vm} {M : Finset Nat} {L : Nat → Prop} {dst src : Nat}, MemInv own L (s, M) → dst ∈ M → src ∈ M → dst ≠ src →
    (fork dst src s).Meets
      (fun _ s' => MemInv own L (s', M) ∧ seen (s', M) = Function.update (seen (s, M)) dst fun n =>
        (seen (s, M) src n).or (seen (s, M) dst n))
      (fun _ s' => MemInv own L (s', M) ∧ ∃ child, (∀ n, child n = seen (s, M) dst n ∨
        child n = (seen (s, M) src n).or (seen (s, M) dst n)) ∧ seen (s', M) = Function.update (seen (s, M)) dst child)
      fun _ => True
  fault : ∀ {s s' : Vm} {M : Finset Nat} {L : Nat → Prop} {m errorCode addr : Nat} {code : Int} {serve : Nat → Nat → Nat → VmM Int},
    pgfault = some serve → MemInv own L (s, M) → m ∈ M → (MemEvent.fault m addr code).Served (s, M) →
    serve m errorCode addr s = .ok code s' →
    MemInv own L (s', M) ∧ Memories.Step (seen (s, M)) (.fault m addr code) (seen (s', M))

/-- **The step lemma**: the steps of such a kernel are those of processes with memories of their own. -/
theorem Implements.step {fork : Nat → Nat → VmM Unit} {pgfault : Option (Nat → Nat → Nat → VmM Int)} {a b : VmState} {i : MemEvent}
    (hk : Implements own fork pgfault) (h : MemInv own L a) (hserved : i.Served a) (hs : MemStep fork pgfault a i b) :
    (∃ L', MemInv own L' b) ∧ Memories.Step (seen a) i (seen b) := by
  cases hs with
  | create hboot hrun =>
    obtain ⟨hinv, hseen⟩ := (h.create hboot).of_ok hrun
    rw [hseen]
    exact ⟨⟨L, hinv⟩, .create⟩
  | noCreate hboot hrun =>
    obtain ⟨hinv, hseen⟩ := (h.create hboot).of_err hrun
    rw [hseen]
    exact ⟨⟨L, hinv⟩, .create⟩
  | map hm hend =>
    obtain ⟨hinv, hseen⟩ := h.map hend
    rw [hseen]
    exact ⟨⟨L, hinv⟩, .map⟩
  | alloc x hm hv hin hnew hrun =>
    obtain ⟨hinv, hseen⟩ := h.alloc hm hv hin x hrun
    rw [hseen]
    exact ⟨⟨L, hinv⟩, .alloc (seen_eq_none hnew)⟩
  | noAlloc hm hv hin hnew hrun =>
    obtain ⟨hinv, hseen⟩ := h.noAlloc hm hv hin hrun
    rw [hseen]
    exact ⟨⟨L, hinv⟩, .noAlloc⟩
  | fork hdst hsrc hne hrun =>
    obtain ⟨hinv, hseen⟩ := (hk.fork h hdst hsrc hne).of_ok hrun
    rw [hseen]
    exact ⟨⟨L, hinv⟩, .fork⟩
  | noFork hdst hsrc hne hrun =>
    obtain ⟨hinv, child, hchild, hseen⟩ := (hk.fork h hdst hsrc hne).of_err hrun
    rw [hseen]
    exact ⟨⟨L, hinv⟩, .noFork hchild⟩
  | fault hm hserve hrun =>
    obtain ⟨hinv, hseen⟩ := hk.fault hserve h hm hserved hrun
    exact ⟨⟨L, hinv⟩, hseen⟩
  | load hm hmay =>
    have hseen := seen_mapped hm (page_lt hmay.1) hmay.2.1
    exact ⟨⟨L, h⟩, .load hseen⟩
  | store hm hmay =>
    have hold := seen_mapped hm (page_lt hmay.1) hmay.2.1
    obtain ⟨hinv, hseen⟩ := h.store hk.owner hm hmay _
    rw [hseen]
    exact ⟨⟨L, hinv⟩, .store hold⟩
  | exit hm hrun =>
    obtain ⟨hinv, hseen⟩ := h.exit hm hrun
    rw [hseen]
    exact ⟨hinv, .exit⟩

/-- **The run lemma.** -/
theorem Implements.run {fork : Nat → Nat → VmM Unit} {pgfault : Option (Nat → Nat → Nat → VmM Int)} {a b : VmState}
    {is : List MemEvent} (hk : Implements own fork pgfault) (h : MemInv own L a)
    (hrun : Traced (fun a i b => i.Served a ∧ MemStep fork pgfault a i b) a is b) :
    (∃ L', MemInv own L' b) ∧ Traced Memories.Step (seen a) is (seen b) := by
  have hstep : ∀ a i b, (∃ L, MemInv own L a) → i.Served a ∧ MemStep fork pgfault a i b →
      (∃ L', MemInv own L' b) ∧ Memories.Step (seen a) i (seen b) := by
    rintro a i b ⟨L₁, ha⟩ hs
    exact hk.step ha hs.1 hs.2
  exact hrun.refines hstep ⟨L, h⟩

/-- No page is referenced, and there is no process. -/
theorem memInv_init {a : VmState} (own : Pte → Bool) (h : VmInit a) : MemInv own (fun _ => False) a := by
  have hinv := vmReaches_inv (.start h)
  refine ⟨hinv, fun k p hk => ?_⟩
  obtain ⟨m, hm, -⟩ := exists_place (mem_places_of_cell hk)
  rw [h.1] at hm
  exact absurd hm (Finset.notMem_empty m)

theorem seen_init {a : VmState} (h : VmInit a) : seen a = fun _ _ => none := by
  funext m n
  apply seen_out
  rintro ⟨hm, -⟩
  rw [h.1] at hm
  exact Finset.notMem_empty m hm

/-! ## A page that holds sevens, and a second process -/

def filledVm : Vm := oneAreaVm.setMem (oneAreaVm.mem.setData 1 fun _ => 7)
def pairVm : Vm := (mmNew (fun _ => .zero) filledVm).left filledVm

/-- Runs may begin like this, whatever the kernel. -/
theorem pairVm_reached {fork : Nat → Nat → VmM Unit} {pgfault : Option (Nat → Nat → Nat → VmM Int)} {is : List MemEvent} {b : VmState}
    (hfork : fork 2 0 pairVm = .ok () s)
    (hrest : Traced (fun a i b => i.Served a ∧ MemStep fork pgfault a i b) (s, insert 2 (insert 0 ∅)) is b) :
    Traced (fun a i b => i.Served a ∧ MemStep fork pgfault a i b) (freshVm, ∅)
      (.create :: .map 0 :: .alloc 0 0x200000 (some (pageBytes fun _ => 7)) :: .create :: .fork 2 0 true :: is) b := by
  have hcreate : MemStep fork pgfault (freshVm, ∅) .create (emptyVm, insert 0 ∅) :=
    @MemStep.create _ _ _ _ _ (fun _ => .zero) 0 (fun _ _ => rfl) rfl
  have hmap : MemStep fork pgfault (emptyVm, insert 0 ∅) (.map 0) (areaVm, insert 0 ∅) :=
    @MemStep.map _ _ _ _ _ 0 0x200000 0x1000 ⟨true, true, false, false⟩ (Finset.mem_insert_self 0 ∅) rfl
  have halloc : MemStep fork pgfault (areaVm, insert 0 ∅) (.alloc 0 0x200000 (some (pageBytes fun _ => 7))) (filledVm, insert 0 ∅) :=
    .alloc (fun _ => 7) (Finset.mem_insert_self 0 ∅) (List.mem_singleton_self _) (by decide) rfl rfl
  have hsecond : MemStep fork pgfault (filledVm, insert 0 ∅) .create (pairVm, insert 2 (insert 0 ∅)) :=
    @MemStep.create _ _ _ _ _ (fun _ => .zero) 2 (fun _ _ => rfl) rfl
  have hcopy : MemStep fork pgfault (pairVm, insert 2 (insert 0 ∅)) (.fork 2 0 true) (s, insert 2 (insert 0 ∅)) :=
    .fork (Finset.mem_insert_self 2 _) (Finset.mem_insert_of_mem (Finset.mem_insert_self 0 ∅)) (by decide) hfork
  exact .cons ⟨trivial, hcreate⟩ (.cons ⟨trivial, hmap⟩ (.cons ⟨trivial, halloc⟩ (.cons ⟨trivial, hsecond⟩
    (.cons ⟨trivial, hcopy⟩ hrest))))

/-- The second process may write a nine, then both may read; and the first one may end. -/
def ReadsApart (s : Vm) : Prop := s.MayStore 2 0x200000 ∧
  ((s.storeByte 2 0x200000 9).MayLoad 0 0x200000 ∧ (s.storeByte 2 0x200000 9).byteAt 0 0x200000 = 7) ∧
  ((exitMmap 0 >>= fun _ => putPgdir 0 : VmM Unit) (s.storeByte 2 0x200000 9)).test fun _ s' =>
    decide (s'.MayLoad 2 0x200000 ∧ s'.byteAt 2 0x200000 = 9)

instance (s : Vm) : Decidable (ReadsApart s) := inferInstanceAs (Decidable (_ ∧ (_ ∧ _) ∧ _))

theorem ReadsApart.traced {fork : Nat → Nat → VmM Unit} {pgfault : Option (Nat → Nat → Nat → VmM Int)} (h : ReadsApart s) :
    ∃ b, Traced (fun a i b => i.Served a ∧ MemStep fork pgfault a i b) (s, insert 2 (insert 0 ∅))
      [.store 2 0x200000 9, .load 0 0x200000 7, .exit 0, .load 2 0x200000 9] b := by
  obtain ⟨hstore, ⟨hload, hseven⟩, htest⟩ := h
  obtain ⟨_, s', hexit, hgood⟩ := Outcome.exists_of_test htest
  obtain ⟨hload', hnine⟩ := of_decide_eq_true hgood
  have hchild : 2 ∈ (insert 2 (insert 0 ∅) : Finset Nat) := Finset.mem_insert_self 2 _
  have hparent : 0 ∈ (insert 2 (insert 0 ∅) : Finset Nat) := Finset.mem_insert_of_mem (Finset.mem_insert_self 0 ∅)
  have hread : MemStep fork pgfault (s.storeByte 2 0x200000 9, insert 2 (insert 0 ∅)) (.load 0 0x200000
      ((s.storeByte 2 0x200000 9).byteAt 0 0x200000)) (s.storeByte 2 0x200000 9, insert 2 (insert 0 ∅)) := .load hparent hload
  have hread' : MemStep fork pgfault (s', (insert 2 (insert 0 ∅) : Finset Nat).erase 0) (.load 2 0x200000 (s'.byteAt 2 0x200000))
      (s', (insert 2 (insert 0 ∅) : Finset Nat).erase 0) := .load (Finset.mem_erase.mpr ⟨by decide, hchild⟩) hload'
  rw [hseven] at hread
  rw [hnine] at hread'
  exact ⟨_, .cons ⟨trivial, .store hchild hstore⟩ (.cons ⟨trivial, hread⟩ (.cons ⟨trivial, .exit hparent hexit⟩
    (.cons ⟨trivial, hread'⟩ .nil)))⟩

end Ucore
