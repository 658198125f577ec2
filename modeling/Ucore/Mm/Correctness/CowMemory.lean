import Ucore.Mm.Correctness.ForkMemory

/-!
# `Mm.Correctness.CowMemory` — copy-on-write is not noticed

In `lab5_challenge` a fork shares the pages of the parent, and `do_pgfault` makes the copies. The processes see what they would see
if each had a memory of its own and a fork copied all of it.
-/

namespace Ucore.Cow

open PageMem

/-- An entry gives its page away for writing. -/
abbrev canWrite (e : Pte) : Bool := e.perm.w

/-! ## No page is written to -/

def SameData (s s' : PageMem) : Prop := s'.data = s.data

instance : Std.Refl SameData := ⟨fun _ => rfl⟩

instance : IsTrans PageMem SameData := ⟨fun _ _ _ h h' => Eq.trans h' h⟩

theorem modify_data {f : PageMem → PageMem} (h : ∀ s, (f s).data = s.data) : Keeps SameData (Proc.modify f : MemM Unit) := .of_modify h

theorem allocPage_data : Keeps SameData allocPage := by
  intro s
  rcases allocPage_cases s with hrun | ⟨p, -, hrun⟩
  · rw [hrun]
    rfl
  · rw [hrun]
    rfl

theorem getTable_data (t i : Nat) (create : Bool) : Keeps SameData (getTable t i create) := by
  refine Keeps.of_get.bind fun s => ?_
  split
  · exact .of_pure _
  · split
    · exact .of_pure _
    · refine allocPage_data.bind fun page => ?_
      cases page with
      | none => exact .of_pure _
      | some page =>
        refine Keeps.bind (modify_data ?_) fun _ => .of_pure _
        exact fun _ => rfl

theorem getPte_data (pgdir la : Nat) (create : Bool) : Keeps SameData (getPte pgdir la create) := by
  refine (getTable_data _ _ _).bind fun pd0 => ?_
  cases pd0 with
  | none => exact .of_pure _
  | some pd0 =>
    refine (getTable_data _ _ _).bind fun pt => ?_
    cases pt with
    | none => exact .of_pure _
    | some pt => exact .of_pure _

theorem pageInsert_data (pgdir page la : Nat) (perm : Perm) : Keeps SameData (pageInsert pgdir page la perm) := by
  refine (getPte_data pgdir la true).bind fun ptep => ?_
  cases ptep with
  | none => exact .of_fail _
  | some ptep =>
    intro s
    dsimp only
    rw [pageInsertAt_run]
    show (ite _ _ _ : PageMem).data = s.data
    split
    · split
      · rfl
      · exact (unref_same _ _).2.1
    · rfl

theorem copyRound_data (pgdirTo pgdirFrom start : Nat) : Keeps SameData (copyRound pgdirTo pgdirFrom start) := by
  refine (getPte_data _ _ _).bind fun ptep => ?_
  cases ptep with
  | none => exact .of_pure _
  | some ptep =>
    have hnext : Keeps SameData (pure (start + pgsize) : MemM Nat) := .of_pure _
    have hprotect : Keeps SameData (protectPte ptep) := by
      intro s
      rw [protectPte_run]
      rfl
    have hshare : Keeps SameData (sharePage pgdirTo start ptep) := by
      refine Keeps.of_get.bind fun s => hprotect.bind fun perm => ?_
      refine (pageInsert_data _ _ _ _).attempt.bind fun ret => ?_
      cases ret with
      | error e => exact .of_stop _
      | ok _ => exact .of_pure _
    refine Keeps.of_get.bind fun s => ?_
    split
    · exact hshare.bind fun _ => hnext
    · exact hnext

theorem rangeLoop_data {body : Nat → MemM Nat} (h : ∀ la, Keeps SameData (body la)) (stop fuel : Nat) :
    ∀ start, Keeps SameData (rangeLoop body stop fuel start) := by
  induction fuel with
  | zero => exact fun _ => .of_stop _
  | succ fuel ih =>
    intro start
    refine (h start).bind fun next => ?_
    split
    · exact ih next
    · exact .of_pure _

/-- **`copy_range` writes to no page.** -/
theorem copyRange_data (pgdirTo pgdirFrom start stop : Nat) : Keeps SameData (copyRange pgdirTo pgdirFrom start stop) :=
  ((Keeps.of_check _ _).bind fun _ => .of_check _ _).bind fun _ => rangeLoop_data (copyRound_data _ _) _ _ _

/-! ## Forks -/

variable {own : Pte → Bool} {L R : Nat → Prop} {D : Finset Nat} {mem mem' : PageMem} {d dst src n la page m addr errorCode : Nat}
  {code : Int} {perm : Perm} {flags : VmFlags} {s s' : Vm} {M : Finset Nat} {a b : VmState} {is : List MemEvent}

/-- **Pages that are shared** are seen by both, and written to by none. -/
theorem Shared.duplicates (h : Shared D L dst src R mem mem') (hdata : mem'.data = mem.data) (hdst : dst ∈ D) (hsrc : src ∈ D) :
    Duplicated canWrite D L dst src R mem mem' := by
  have hsee : ∀ k k' : Nat × Nat, (mem'.cells canWrite D).cell k = (mem.cells canWrite D).cell k' →
      (mem'.cells canWrite D).view k = (mem.cells canWrite D).view k' := by
    intro k k' hcell
    apply Cells.view_congr hcell
    intro p _
    show pageBytes (mem'.data p) = pageBytes (mem.data p)
    rw [hdata]
  -- an entry that has lost the right to write maps the same page
  have hfrom : ∀ n, n < userPages → R n → (mem.leaf src n).v = true → ∀ d ∈ D, d = dst ∨ d = src →
      (mem'.cells canWrite D).cell (d, n) = (mem.cells canWrite D).cell (src, n) ∧
        (mem'.cells canWrite D).own (d, n) = false := by
    intro n hn hR hv d hd hdir
    have hleaf := h.shared n hn hR hv d hd hdir
    rw [cells_cell hd hn, cells_cell hsrc hn, cells_own hd hn, maps_eq_target, maps_eq_target, hleaf]
    exact ⟨rfl, rfl⟩
  have hsame : ∀ k : Nat × Nat, ¬ ((k.1 = dst ∨ k.1 = src) ∧ R k.2 ∧ (mem.leaf src k.2).v = true) →
      (mem'.cells canWrite D).cell k = (mem.cells canWrite D).cell k ∧ (mem'.cells canWrite D).own k = (mem.cells canWrite D).own k := by
    rintro ⟨d, n⟩ hno
    by_cases hk : (d, n) ∈ places D
    · obtain ⟨hd, hn⟩ := mem_places.mp hk
      have hleaf := h.same d hd n hn hno
      rw [cells_cell hd hn, cells_cell hd hn, cells_own hd hn, cells_own hd hn, maps_of_leaf hleaf, hleaf]
      exact ⟨rfl, rfl⟩
    · rw [cells_out hk, cells_out hk]
      simp [cells, hk]
  refine ⟨h.sound, fun hx => hx.share fun k => ?_, fun n hR => ?_, fun k hno => ?_⟩
  · by_cases hk : k ∈ places D
    · obtain ⟨hd, hn⟩ := mem_places.mp hk
      right
      by_cases hshared : (k.1 = dst ∨ k.1 = src) ∧ R k.2 ∧ (mem.leaf src k.2).v = true
      · obtain ⟨hdir, hR, hv⟩ := hshared
        right
        obtain ⟨hcell, hown⟩ := hfrom k.2 hn hR hv k.1 hd hdir
        exact ⟨(src, k.2), hcell, hown, (hfrom k.2 hn hR hv src hsrc (Or.inr rfl)).2⟩
      · left
        obtain ⟨hcell, hown⟩ := hsame k hshared
        rw [hcell, hown]
        exact ⟨rfl, id⟩
    · exact Or.inl (cells_out hk)
  · by_cases hn : n < userPages
    · by_cases hv : (mem.leaf src n).v = true
      · rw [hsee (dst, n) (src, n) (hfrom n hn hR hv dst hdst (Or.inl rfl)).1, view_of_v hsrc hn hv]
        rfl
      · rw [hsee (dst, n) (dst, n) (hsame (dst, n) fun hcon => hv hcon.2.2).1, view_of_not_v hv]
        rfl
    · have hout : ∀ (mem : PageMem) (d : Nat), (mem.cells canWrite D).view (d, n) = none := by
        intro mem d
        rw [Cells.view_eq_none, cells_out fun hcon => hn (mem_places.mp hcon).2]
      simp [hout]
  · apply hsee
    by_cases hk : k ∈ places D
    · obtain ⟨hd, hn⟩ := mem_places.mp hk
      by_cases hshared : (k.1 = dst ∨ k.1 = src) ∧ R k.2 ∧ (mem.leaf src k.2).v = true
      · obtain ⟨hdir, hR, hv⟩ := hshared
        have hks : k.1 = src := hdir.resolve_left fun heq => hno ⟨heq, hR⟩
        have hcell := (hfrom k.2 hn hR hv k.1 hd hdir).1
        rw [← hks] at hcell
        exact hcell
      · exact (hsame k hshared).1
    · rw [cells_out hk, cells_out hk]

/-- **`copy_range`.** -/
theorem copyRange_duplicates : CopiesRange canWrite copyRange := by
  intro mem D L dst src start stop h hdst hsrc _
  have hshared := @copyRange_meets mem D L dst src start stop h hdst hsrc
  cases hrun : copyRange dst src start stop mem with
  | ok u mem' => exact (hshared.of_ok hrun).duplicates ((copyRange_data _ _ _ _).ok hrun) hdst hsrc
  | err e mem' => exact (hshared.of_err hrun).elim
  | panic q => trivial

/-! ## Page faults -/

/-- Nobody notices. -/
def Unnoticed (own : Pte → Bool) (D : Finset Nat) (mem mem' : PageMem) : Prop :=
  ((mem.cells own D).Exclusive → (mem'.cells own D).Exclusive) ∧ (mem'.cells own D).view = (mem.cells own D).view

theorem Unnoticed.of_cells (h : mem'.cells own D = mem.cells own D) : Unnoticed own D mem mem' :=
  ⟨fun hx => h ▸ hx, congrArg Cells.view h⟩

/-- The page is there now. -/
def Brought (own : Pte → Bool) (D : Finset Nat) (d n : Nat) (mem mem' : PageMem) : Prop :=
  ((mem.cells own D).Exclusive → (mem'.cells own D).Exclusive) ∧
    ∃ page : PageBytes, (mem'.cells own D).view = Function.update (mem.cells own D).view (d, n) (some page)

/-- **A copy-on-write fault is not noticed**, whether it makes a copy, finds that it need not, or fails. -/
theorem cowFault_unnoticed (own : Pte → Bool) (h : Sound mem D L) (hd : d ∈ D) (hla : la < userTop)
    (hmaps : mem.maps d (la / pgsize) = some page) (perm : Perm) :
    (cowFault d la page perm mem).Meets (fun _ mem' => Unnoticed own D mem mem') (fun _ _ => False) fun _ => False := by
  have hn := page_lt hla
  have hcell : (mem.cells own D).cell (d, la / pgsize) = some page := by rw [cells_cell hd hn, hmaps]
  rw [cowFault, Proc.get_bind]
  by_cases hshared : mem.ref page > 1
  · rw [if_pos hshared]
    rcases allocPage_cases mem with hal | ⟨p, hp, hal⟩
    · rw [Proc.bind_ok hal]
      apply Unnoticed.of_cells
      exact cells_congr (fun _ _ _ _ => rfl) rfl
    · rw [Proc.bind_ok hal]
      dsimp only
      rw [Proc.modify_bind]
      show (Proc.attempt (pageInsert d p la perm) >>= _) (mem.copied p page) |>.Meets _ _ _
      have hunused : (mem.cells own D).Unused p := h.unused hp
      have hcopied : (mem.copied p page).cells own D = (mem.cells own D).store p (pageBytes (mem.data page)) :=
        cells_copied mem D p page
      have hsound : Sound (mem.copied p page) D L := h.copied p page
      have hfree : p ∉ (mem.copied p page).free := Finset.notMem_erase p mem.free
      rcases pageInsert_spec hsound hd hla hfree (h.not_isTable hp) (h.not_lost (.inl hp)) perm with
        ⟨mem', hrun, hg, -⟩ | ⟨mem', hrun, hins⟩
      · rw [Proc.bind_ok (Proc.attempt_err hrun)]
        -- the new page goes back, with the copy in it
        have hback : (mem'.give p).cells own D = (mem.cells own D).store p (pageBytes (mem.data page)) := by
          rw [← hcopied, ← hg.cells]
          exact cells_congr (fun _ _ _ _ => rfl) rfl
        refine ⟨fun hx => ?_, ?_⟩
        · rw [hback]
          exact hx.store p _
        · rw [hback]
          exact hunused.view_store _
      · rw [Proc.bind_ok (Proc.attempt_ok hrun)]
        have hnow : mem'.cells own D = ((mem.cells own D).store p (pageBytes (mem.data page))).put (d, la / pgsize) (some p)
            (own (pteCreate p perm)) := by
          rw [hins.cells hd hn, hcopied]
        refine ⟨fun hx => ?_, ?_⟩
        · rw [hnow]
          exact (hx.store p _).put_unused (hunused.store p _) _ _
        · rw [hnow]
          exact Cells.view_copy hcell hunused _
  · rw [if_neg hshared]
    obtain ⟨hfree, htable⟩ := h.leafBusy d hd _ _ hn hmaps
    rcases pageInsert_spec h hd hla hfree htable (h.not_lost (.inr (count_pos hd hn hmaps))) perm with
      ⟨mem', hrun, hg, -⟩ | ⟨mem', hrun, hins⟩
    · rw [Proc.bind_ok (Proc.attempt_err hrun)]
      exact .of_cells hg.cells
    · rw [Proc.bind_ok (Proc.attempt_ok hrun)]
      have hnow : mem'.cells own D = (mem.cells own D).put (d, la / pgsize) (some page) (own (pteCreate page perm)) :=
        hins.cells hd hn
      refine ⟨fun hx => ?_, ?_⟩
      · rw [hnow]
        apply hx.put_sole
        exact h.sole hd hn hmaps (Int.not_lt.mp hshared)
      · rw [hnow]
        exact Cells.view_put_same hcell _

theorem missingFault_brings (own : Pte → Bool) (h : Sound mem D L) (hd : d ∈ D) (hla : la < userTop) (perm : Perm) :
    (missingFault d la perm mem).Meets
      (fun code mem' => code ≠ 0 ∧ Unnoticed own D mem mem' ∨ code = 0 ∧ Brought own D d (la / pgsize) mem mem') (fun _ _ => False)
      fun _ => False := by
  refine (pgdirAllocPage_cells h hd hla own perm).bind ?_
  rintro (_ | p) mem' hpage
  · exact Or.inl ⟨by decide, .of_cells hpage⟩
  · obtain ⟨hunused, hcells⟩ := hpage
    refine Or.inr ⟨rfl, fun hx => ?_, pageBytes (mem.data p), ?_⟩
    · rw [hcells]
      exact hx.put_unused hunused _ _
    · rw [hcells, Cells.view_put]
      rfl

/-- **`do_pgfault` inside an area**: the page is missing, or a copy is asked for. -/
theorem faultIn_seen (own : Pte → Bool) (h : Sound mem D L) (hd : d ∈ D) (hla : la < userTop)
    (hserved : (mem.leaf d (la / pgsize)).v = false ∨ IsCow (mem.leaf d (la / pgsize)) flags) :
    (faultIn d la flags mem).Meets
      (fun code mem' => (code = 0 → (mem.leaf d (la / pgsize)).v = true) ∧ Unnoticed own D mem mem' ∨
        code = 0 ∧ (mem.leaf d (la / pgsize)).v = false ∧ Brought own D d (la / pgsize) mem mem') (fun _ _ => False)
      fun _ => False := by
  have hdown : rounddown la pgsize / pgsize = la / pgsize := by
    show (la - la % 2 ^ 12) / 2 ^ 12 = la / 2 ^ 12
    omega
  have hlt : rounddown la pgsize < userTop := Nat.lt_of_le_of_lt (Nat.sub_le _ _) hla
  have hmissing : (mem.leaf d (la / pgsize)).v = false → (missingFault d la (missingPerm flags) mem).Meets
      (fun code mem' => (code = 0 → (mem.leaf d (la / pgsize)).v = true) ∧ Unnoticed own D mem mem' ∨
        code = 0 ∧ (mem.leaf d (la / pgsize)).v = false ∧ Brought own D d (la / pgsize) mem mem') (fun _ _ => False)
      fun _ => False := by
    intro hv
    refine (missingFault_brings own h hd hla _).imp ?_ (fun _ _ h => h) fun _ h => h
    rintro code mem' (⟨hcode, hsame⟩ | ⟨hcode, hpage⟩)
    · exact Or.inl ⟨fun hcon => absurd hcon hcode, hsame⟩
    · exact Or.inr ⟨hcode, hv, hpage⟩
  rw [faultIn]
  dsimp only
  rw [Proc.bind_ok (getPte_false mem d hlt), hdown]
  cases hpt : mem.tab d (ptSlot (la / pgsize)) with
  | none =>
    apply hmissing
    rw [leaf_of_none hpt]
    rfl
  | some t =>
    dsimp only [Option.map_some]
    rw [Proc.get_bind, ← leaf_of_tab hpt]
    by_cases hcow : IsCow (mem.leaf d (la / pgsize)) flags
    · rw [if_pos hcow]
      have hmaps : mem.maps d (rounddown la pgsize / pgsize) = some (mem.leaf d (la / pgsize)).ppn := by
        rw [hdown]
        exact maps_eq_some.mpr ⟨hcow.1, rfl⟩
      refine (cowFault_unnoticed own h hd hlt hmaps (cowPerm flags)).imp ?_ (fun _ _ h => h) fun _ h => h
      exact fun code mem' hsame => Or.inl ⟨fun _ => hcow.1, hsame⟩
    · rw [if_neg hcow]
      exact hmissing (hserved.resolve_right hcow)

/-- The memory after a fault. -/
theorem doPgfault_mem (hi : MemInv own L (s, M)) (hm : m ∈ M) (hserved : (MemEvent.fault m addr code).Served (s, M))
    (hrun : doPgfault m errorCode addr s = .ok code s') :
    (code = 0 → addr / pgsize < userPages ∧ (s.pte m (addr / pgsize)).v = true) ∧ Unnoticed own (s.dirs M) s.mem s'.mem ∨
      code = 0 ∧ addr / pgsize < userPages ∧ (s.pte m (addr / pgsize)).v = false ∧
        Brought own (s.dirs M) (s.mm m).pgdir (addr / pgsize) s.mem s'.mem := by
  cases hvma : (s.mm m).findVma addr with
  | none =>
    rw [doPgfault_none hvma] at hrun
    cases hrun
    left
    refine ⟨fun hcon => absurd hcon (by decide), .of_cells rfl⟩
  | some v =>
    obtain ⟨hv, hin⟩ := (hi.inv.wf m hm).toSorted.find_some hvma
    have hla := ((hi.inv.wf m hm).ok v hv).lt_userTop hin
    rw [doPgfault_some hvma] at hrun
    obtain ⟨mem', hfault, rfl⟩ := inMem_eq_ok.mp hrun
    have hcow : (s.mem.leaf (s.mm m).pgdir (addr / pgsize)).v = false ∨
        IsCow (s.mem.leaf (s.mm m).pgdir (addr / pgsize)) v.vmFlags := by
      rcases hserved with hmissing | hcopy
      · exact Or.inl hmissing
      · exact Or.inr ((copyFault_iff hi.inv hm hv hin).mp hcopy)
    rcases (faultIn_seen own hi.inv.sound (Vm.mem_dirs hm) hla hcow).of_ok hfault with ⟨hcode, hsame⟩ | ⟨hcode, hnew, hpage⟩
    · exact Or.inl ⟨fun hzero => ⟨page_lt hla, hcode hzero⟩, hsame⟩
    · exact Or.inr ⟨hcode, page_lt hla, hnew, hpage⟩

/-- **`do_pgfault`**, as the processes see it. -/
theorem doPgfault_seen (hi : MemInv own L (s, M)) (hm : m ∈ M) (hserved : (MemEvent.fault m addr code).Served (s, M))
    (hrun : doPgfault m errorCode addr s = .ok code s') :
    MemInv own L (s', M) ∧ Memories.Step (seen (s, M)) (.fault m addr code) (seen (s', M)) := by
  have hf := (doPgfault_meets hi.inv hm errorCode addr).of_ok hrun
  have hcells : s'.cells own M = s'.mem.cells own (s.dirs M) := by rw [Vm.cells, Vm.dirs_congr hf.wider.pgdir]
  rcases doPgfault_mem hi hm hserved hrun with ⟨hcode, hexcl, hview⟩ | ⟨rfl, hn, hnew, hexcl, page, hview⟩
  · rw [← hcells] at hexcl hview
    rw [seen_congr own hf.wider.pgdir hview]
    refine ⟨⟨hf.inv, hexcl hi.exclusive⟩, .fault fun hzero => ?_⟩
    obtain ⟨hn, hv⟩ := hcode hzero
    rw [seen_mapped hm hn hv]
    exact Option.some_ne_none _
  · rw [← hcells] at hexcl hview
    rw [seen_set own hi.inv hm hn hf.wider.pgdir hview]
    exact ⟨⟨hf.inv, hexcl hi.exclusive⟩, .bring (seen_eq_none hnew)⟩

/-! ## The kernel -/

theorem cow_implements : Implements canWrite dupMmap (some doPgfault) where
  owner _ hw := hw
  fork := by
    intro s M L dst src hi hdst hsrc hne
    rw [dupMmap, Proc.get_bind, dupVmas_eq]
    exact dupAreas_fork copyRange_duplicates hi hdst hsrc hne
  fault := by
    intro s s' M L m errorCode addr code serve hserve hi hm hserved hrun
    cases hserve
    exact doPgfault_seen hi hm hserved hrun

/-- After its copy has been made, the page may be written to. -/
theorem doPgfault_mayStore (hi : s.Inv M L) (hm : m ∈ M) (hcopy : CopyFault s m addr)
    (hrun : doPgfault m errorCode addr s = .ok 0 s') : s'.MayStore m addr := by
  obtain ⟨v, hv, hin, hcow⟩ := hcopy
  have hf := (doPgfault_meets hi hm errorCode addr).of_ok hrun
  rcases hf.entry with ⟨hfail, -⟩ | ⟨-, w, hw, hwin, p, hpte⟩
  · exact absurd rfl hfail
  · obtain rfl : w = v := Option.some.inj ((found_area hi hm hw hwin).symm.trans (found_area hi hm hv hin))
    rw [faultPerm, if_pos hcow] at hpte
    refine ⟨((hi.wf m hm).ok w hw).lt_userTop hin, ?_⟩
    rw [hpte]
    exact ⟨rfl, hcow.2.2, rfl⟩

/-- **Copy-on-write is not noticed.** In every run from the start, the processes see what they would see if each had a memory
of its own and a fork copied it. And a write to a page that is shared can be made as soon as there is room for the copy. -/
theorem cow_private (hstart : VmInit a) (hrun : Traced (fun a i b => i.Served a ∧ CowStep a i b) a is b) :
    Traced Memories.Step (fun _ _ => none) is (seen b) ∧ ∀ m ∈ b.2, ∀ errorCode addr, CopyFault b.1 m addr →
      ∃ code s', doPgfault m errorCode addr b.1 = .ok code s' ∧ (code = 0 ↔ CanCopy b.1 m addr) ∧ (code = 0 → s'.MayStore m addr) := by
  obtain ⟨⟨L, hi⟩, htraced⟩ := cow_implements.run (memInv_init canWrite hstart) hrun
  rw [seen_init hstart] at htraced
  refine ⟨htraced, fun m hm errorCode addr hcopy => ?_⟩
  cases hfault : doPgfault m errorCode addr b.1 with
  | ok code s' =>
    refine ⟨code, s', rfl, doPgfault_copy hi.inv hm hcopy hfault, fun hzero => ?_⟩
    rw [hzero] at hfault
    exact doPgfault_mayStore hi.inv hm hcopy hfault
  | err e s' => exact ((doPgfault_meets hi.inv hm errorCode addr).of_err hfault).elim
  | panic q => exact ((doPgfault_meets hi.inv hm errorCode addr).of_panic hfault).elim

/-- The child's first write to the page fails, and is made after the fault. The parent does not see it. Then the parent ends. -/
theorem cow_private_fork : ∃ b, Traced Memories.Step (fun _ _ => none)
    [.create, .map 0, .alloc 0 0x200000 (some (pageBytes fun _ => 7)), .create, .fork 2 0 true, .fault 2 0x200000 0,
      .store 2 0x200000 9, .load 0 0x200000 7, .exit 0, .load 2 0x200000 9] (seen b) := by
  have htest : (dupMmap 2 0 pairVm).test (fun _ s => decide (CopyFault s 2 0x200000) &&
      (doPgfault 2 15 0x200000 s).test fun code s => code == 0 && decide (ReadsApart s)) = true := by decide +kernel
  obtain ⟨_, s, hfork, hgood⟩ := Outcome.exists_of_test htest
  rw [Bool.and_eq_true, decide_eq_true_eq] at hgood
  obtain ⟨hcopy, htest'⟩ := hgood
  obtain ⟨code, s', hfault, hgood⟩ := Outcome.exists_of_test htest'
  simp only [Bool.and_eq_true, beq_iff_eq, decide_eq_true_eq] at hgood
  obtain ⟨rfl, hapart⟩ := hgood
  have hserved : (MemEvent.fault 2 0x200000 0).Served (s, insert 2 (insert 0 ∅)) := Or.inr hcopy
  have hcopied : CowStep (s, insert 2 (insert 0 ∅)) (.fault 2 0x200000 0) (s', insert 2 (insert 0 ∅)) :=
    .fault (Finset.mem_insert_self 2 _) rfl hfault
  obtain ⟨b, hrest⟩ := hapart.traced
  have hrun := pairVm_reached hfork (.cons ⟨hserved, hcopied⟩ hrest)
  exact ⟨b, (cow_private ⟨rfl, fun _ => rfl⟩ hrun).1⟩

end Ucore.Cow
