import Ucore.Mm.Correctness.MemSteps

/-!
# `Mm.Correctness.ForkMemory` — a fork copies the memory

`Duplicated R`: at the pages of `R` the target sees what the source sees, if the source maps the page, and nothing else
is seen differently. This is what both labs' `copy_range` do, whether they copy a page or share it; the loop of `dup_mmap` is the
same in both (`dupAreas`). In `lab8` the pages are copied at once, and there is nothing to do at a page fault.
-/

namespace Ucore

open PageMem

variable {own : Pte → Bool} {L R R' : Nat → Prop} {D : Finset Nat} {mem mem' mem₁ mem₂ : PageMem} {s s' s₁ s₂ : Vm} {M : Finset Nat}
  {dst src m n p : Nat} {v w : Vma}

/-! ## What `copy_range` is for -/

/-- **The target has the pages in `R` of the source.** -/
structure Duplicated (own : Pte → Bool) (D : Finset Nat) (L : Nat → Prop) (dst src : Nat) (R : Nat → Prop) (mem mem' : PageMem) :
    Prop where
  sound : Sound mem' D L
  exclusive : (mem.cells own D).Exclusive → (mem'.cells own D).Exclusive
  copied : ∀ n, R n → (mem'.cells own D).view (dst, n) =
    ((mem.cells own D).view (src, n)).or ((mem.cells own D).view (dst, n))
  kept : ∀ k : Nat × Nat, ¬ (k.1 = dst ∧ R k.2) → (mem'.cells own D).view k = (mem.cells own D).view k

namespace Duplicated

theorem refl (h : Sound mem D L) (hR : ∀ n, R n → (mem.cells own D).view (src, n) = none) :
    Duplicated own D L dst src R mem mem where
  sound := h
  exclusive := id
  copied := by
    intro n hn
    simp [hR n hn]
  kept _ _ := rfl

/-- Nobody sees a difference. -/
theorem of_view (h : Sound mem' D L) (hexcl : (mem.cells own D).Exclusive → (mem'.cells own D).Exclusive)
    (hview : (mem'.cells own D).view = (mem.cells own D).view) : Duplicated own D L dst src (fun _ => False) mem mem' where
  sound := h
  exclusive := hexcl
  copied _ hn := hn.elim
  kept k _ := congrFun hview k

/-- Pages that the source does not map make no difference. -/
theorem mono (h : Duplicated own D L dst src R mem mem') (hsub : ∀ n, R n → R' n)
    (hnew : ∀ n, R' n → ¬ R n → (mem.cells own D).view (src, n) = none) : Duplicated own D L dst src R' mem mem' where
  sound := h.sound
  exclusive := h.exclusive
  copied := by
    intro n hn
    by_cases hR : R n
    · exact h.copied n hR
    · rw [h.kept (dst, n) fun hcon => hR hcon.2]
      simp [hnew n hn hR]
  kept := by
    intro k hno
    apply h.kept k
    exact fun hcon => hno ⟨hcon.1, hsub _ hcon.2⟩

/-- The pages of the source stay what they are. -/
theorem src_view (h : Duplicated own D L dst src R mem mem') (hne : dst ≠ src) (n : Nat) :
    (mem'.cells own D).view (src, n) = (mem.cells own D).view (src, n) := h.kept (src, n) fun hcon => hne hcon.1.symm

theorem trans (hne : dst ≠ src) (h : Duplicated own D L dst src R mem mem₁) (h' : Duplicated own D L dst src R' mem₁ mem₂) :
    Duplicated own D L dst src (fun n => R n ∨ R' n) mem mem₂ where
  sound := h'.sound
  exclusive hx := h'.exclusive (h.exclusive hx)
  copied := by
    intro n hn
    by_cases hR' : R' n
    · rw [h'.copied n hR', h.src_view hne n]
      by_cases hR : R n
      · -- the page is there already
        rw [h.copied n hR, ← Option.or_assoc, Option.or_self]
      · rw [h.kept (dst, n) fun hcon => hR hcon.2]
    · rw [h'.kept (dst, n) fun hcon => hR' hcon.2]
      exact h.copied n (hn.resolve_right hR')
  kept := by
    intro k hno
    rw [h'.kept k fun hcon => hno ⟨hcon.1, Or.inr hcon.2⟩, h.kept k fun hcon => hno ⟨hcon.1, Or.inl hcon.2⟩]

end Duplicated

/-- **What is asked of `copy_range`**; if it fails, some of the pages have been copied. -/
def CopiesRange (own : Pte → Bool) (copy : Nat → Nat → Nat → Nat → MemM Unit) : Prop :=
  ∀ {mem : PageMem} {D : Finset Nat} {L : Nat → Prop} {dst src : Nat} (start stop : Nat), Sound mem D L → dst ∈ D → src ∈ D →
    dst ≠ src → (copy dst src start stop mem).Meets
      (fun _ mem' => Duplicated own D L dst src (InRange start stop) mem mem')
      (fun _ mem' => ∃ R : Nat → Prop, (∀ n, R n → InRange start stop n) ∧ Duplicated own D L dst src R mem mem') fun _ => True

/-! ## Address spaces -/

/-- **The address space `dst` has the pages in `R` of `src`.** -/
structure Vm.Duplicated (own : Pte → Bool) (M : Finset Nat) (L : Nat → Prop) (dst src : Nat) (R : Nat → Prop) (s s' : Vm) : Prop where
  inv : s'.Inv M L
  pgdir : ∀ m ∈ M, (s'.mm m).pgdir = (s.mm m).pgdir
  srcAreas : (s'.mm src).mmapList = (s.mm src).mmapList
  pages : Ucore.Duplicated own (s.dirs M) L (s.mm dst).pgdir (s.mm src).pgdir R s.mem s'.mem

namespace Vm.Duplicated

/-- No page has changed. -/
theorem of_areas (h : s'.Inv M L) (hpgdir : ∀ m ∈ M, (s'.mm m).pgdir = (s.mm m).pgdir)
    (hsrc : (s'.mm src).mmapList = (s.mm src).mmapList) (hmem : s'.mem = s.mem) :
    Vm.Duplicated own M L dst src (fun _ => False) s s' := by
  refine ⟨h, hpgdir, hsrc, ?_⟩
  have hsound := h.sound
  rw [Vm.dirs_congr hpgdir] at hsound
  rw [hmem] at hsound ⊢
  apply Duplicated.refl hsound
  exact fun _ hn => hn.elim

/-- The pages go into an area of `dst`. -/
theorem of_pages (h : s.Inv M L) (hdst : dst ∈ M) (hw : w ∈ (s.mm dst).mmapList) (hR : ∀ n, R n → w.Has n)
    (hpages : Ucore.Duplicated own (s.dirs M) L (s.mm dst).pgdir (s.mm src).pgdir R s.mem mem) :
    Vm.Duplicated own M L dst src R s (s.setMem mem) := by
  refine ⟨h.remem hpages.sound fun m hm n hn hmaps => ?_, fun _ _ => rfl, rfl, hpages⟩
  by_cases hin : (s.mm m).pgdir = (s.mm dst).pgdir ∧ R n
  · right
    rw [h.inj m hm dst hdst hin.1]
    exact ⟨w, hw, hR n hin.2⟩
  · left
    intro hnone
    have hview := hpages.kept ((s.mm m).pgdir, n) hin
    have hold : (s.mem.cells own (s.dirs M)).view ((s.mm m).pgdir, n) = none := by
      rw [Cells.view_eq_none, PageMem.cells_cell (Vm.mem_dirs hm) hn]
      exact hnone
    rw [hold, Cells.view_eq_none, PageMem.cells_cell (Vm.mem_dirs hm) hn] at hview
    exact hmaps hview

theorem trans (hdst : dst ∈ M) (hsrc : src ∈ M) (hne : (s.mm dst).pgdir ≠ (s.mm src).pgdir) (h : Vm.Duplicated own M L dst src R s s₁)
    (h' : Vm.Duplicated own M L dst src R' s₁ s₂) : Vm.Duplicated own M L dst src (fun n => R n ∨ R' n) s s₂ := by
  have hpages := h'.pages
  rw [Vm.dirs_congr h.pgdir, h.pgdir dst hdst, h.pgdir src hsrc] at hpages
  refine ⟨h'.inv, fun m hm => ?_, h'.srcAreas.trans h.srcAreas, h.pages.trans hne hpages⟩
  rw [h'.pgdir m hm, h.pgdir m hm]

/-- The same pages, described in another way. -/
theorem congr (h : Vm.Duplicated own M L dst src R s s') (hR : ∀ n, R n ↔ R' n) : Vm.Duplicated own M L dst src R' s s' := by
  have hsame : R = R' := funext fun n => propext (hR n)
  rw [← hsame]
  exact h

/-- **What the processes see.** -/
theorem seen (h : Vm.Duplicated own M L dst src R s s') (hi : MemInv own L (s, M)) (hdst : dst ∈ M) (hsrc : src ∈ M) :
    MemInv own L (s', M) ∧ ∃ child, seen (s', M) = Function.update (seen (s, M)) dst child ∧
      (∀ n, R n → child n = (seen (s, M) src n).or (seen (s, M) dst n)) ∧ ∀ n, ¬ R n → child n = seen (s, M) dst n := by
  have hview : ∀ m ∈ M, ∀ n, n < userPages → Ucore.seen (s', M) m n = (s'.mem.cells own (s.dirs M)).view ((s.mm m).pgdir, n) := by
    intro m hm n hn
    rw [seen_in own hm hn, Vm.cells, Vm.dirs_congr h.pgdir, h.pgdir m hm]
  refine ⟨⟨h.inv, ?_⟩, Ucore.seen (s', M) dst, ?_, ?_, ?_⟩
  · show (s'.mem.cells own (s'.dirs M)).Exclusive
    rw [Vm.dirs_congr h.pgdir]
    exact h.pages.exclusive hi.exclusive
  · funext m n
    by_cases hm : m = dst
    · rw [hm, Function.update_self]
    · rw [Function.update_of_ne hm]
      by_cases hin : m ∈ M ∧ n < userPages
      · rw [hview m hin.1 n hin.2, seen_in own hin.1 hin.2]
        apply h.pages.kept
        exact fun hcon => hm (hi.inv.inj m hin.1 dst hdst hcon.1)
      · rw [seen_out hin, seen_out hin]
  · intro n hn
    by_cases hlt : n < userPages
    · rw [hview dst hdst n hlt, seen_in own hdst hlt, seen_in own hsrc hlt]
      exact h.pages.copied n hn
    · have hout : ∀ (t : Vm) (m : Nat), Ucore.seen (t, M) m n = none := fun t m => seen_out fun hcon => hlt hcon.2
      simp [hout]
  · intro n hn
    by_cases hlt : n < userPages
    · rw [hview dst hdst n hlt, seen_in own hdst hlt]
      exact h.pages.kept _ fun hcon => hn hcon.2
    · rw [seen_out fun hcon => hlt hcon.2, seen_out fun hcon => hlt hcon.2]

end Vm.Duplicated

/-! ## The loop of `dup_mmap` -/

/-- The loop of `dup_mmap`, with this `copy_range`. -/
def dupAreas (copy : Nat → Nat → Nat → Nat → MemM Unit) (dst : Nat) (pgdirFrom : Nat) : List Vma → VmM Unit
  | []          => pure ()
  | vma :: rest => do
    let nvma ← vmaCreate vma.vmStart vma.vmEnd vma.vmFlags
    match nvma with
    | none      => Proc.fail (-eNoMem)
    | some nvma => do
      insertVmaStruct dst nvma
      let s ← Proc.get
      let ret ← Proc.attempt (inMem (copy (s.mm dst).pgdir pgdirFrom vma.vmStart vma.vmEnd))
      match ret with
      | .error _ => Proc.fail (-eNoMem)
      | .ok _    => dupAreas copy dst pgdirFrom rest

theorem dupVmas_eq (dst pgdirFrom : Nat) (vs : List Vma) : dupVmas dst pgdirFrom vs = dupAreas copyRange dst pgdirFrom vs := by
  induction vs with
  | nil => rfl
  | cons v vs ih =>
    unfold dupVmas dupAreas
    exact ih ▸ rfl

theorem Cow.dupVmas_eq (dst pgdirFrom : Nat) (vs : List Vma) :
    Cow.dupVmas dst pgdirFrom vs = dupAreas Cow.copyRange dst pgdirFrom vs := by
  induction vs with
  | nil => rfl
  | cons v vs ih =>
    unfold Cow.dupVmas dupAreas
    exact ih ▸ rfl

section Fork

variable {copy : Nat → Nat → Nat → Nat → MemM Unit} (hcopy : CopiesRange own copy)

include hcopy

/-- **By induction on the areas that are left.** -/
theorem dupAreas_meets (hdst : dst ∈ M) (hsrc : src ∈ M) (hne : dst ≠ src) (vs : List Vma) : ∀ {s : Vm}, s.Inv M L →
    (∀ v ∈ vs, v ∈ (s.mm src).mmapList) →
    (dupAreas copy dst (s.mm src).pgdir vs s).Meets (fun _ s' => Vm.Duplicated own M L dst src (fun n => ∃ v ∈ vs, v.Has n) s s')
      (fun _ s' => ∃ R, Vm.Duplicated own M L dst src R s s') fun _ => True := by
  induction vs with
  | nil =>
    intro s h _
    apply Vm.Duplicated.congr (Vm.Duplicated.of_areas h (fun _ _ => rfl) rfl rfl)
    simp
  | cons v vs ih =>
    intro s h hvs
    have hv : v ∈ (s.mm src).mmapList := hvs v List.mem_cons_self
    have hok : v.Ok := (h.wf src hsrc).ok v hv
    have hdirs : (s.mm dst).pgdir ≠ (s.mm src).pgdir := fun heq => hne (h.inj dst hdst src hsrc heq)
    rw [dupAreas]
    rcases vmaCreate_cases v.vmStart v.vmEnd v.vmFlags s with hc | ⟨p, _, hc⟩
    · rw [Proc.bind_ok hc]
      exact ⟨_, .of_areas h.ktick (fun _ _ => rfl) rfl rfl⟩
    · rw [Proc.bind_ok hc]
      refine ((insertVmaStruct_meets dst _ _).imp (fun _ _ hh => hh) (fun _ _ hh => hh.elim) fun _ _ => trivial).bind ?_
      rintro _ s₁ ⟨hs₁, hfits⟩
      -- the address spaces with the new area
      have htaken : s.SameAreas (s.ktake p) dst := ⟨rfl, fun _ _ => rfl, rfl, rfl, rfl, rfl, (h.wf dst hdst).toSorted⟩
      have hfree : (s.mm dst).Free v.vmStart v.vmEnd := ⟨hok.2.2, ((h.wf dst hdst).toSorted.fits_iff hok.2.2.2.1).mp hfits⟩
      have hmore : s.MoreAreas s₁ dst v.vmStart v.vmEnd v.vmFlags := hs₁ ▸ (htaken.insert hfree p v.vmFlags).2
      have hinv₁ : s₁.Inv M L := hs₁ ▸ (h.ktake p).addVma dst hok hfits
      have hother : s₁.mm src = s.mm src := hmore.others src hne.symm
      have harea : Vm.Duplicated own M L dst src (fun _ => False) s s₁ :=
        .of_areas hinv₁ (hmore.wider M).pgdir (by rw [hother]) hmore.mem
      obtain ⟨w, hw, hhas, -⟩ := hmore.area
      have hwv : ∀ n, InRange v.vmStart v.vmEnd n → w.Has n := fun n hn => hhas ▸ hn
      have hdirs₁ : (s₁.mm dst).pgdir ≠ (s₁.mm src).pgdir := by
        rw [harea.pgdir dst hdst, hother]
        exact hdirs
      -- its pages
      rw [Proc.get_bind, ← hother]
      have hrange := inMem_meets (hcopy v.vmStart v.vmEnd hinv₁.sound (Vm.mem_dirs hdst) (Vm.mem_dirs hsrc) hdirs₁)
      cases hrun : inMem (copy (s₁.mm dst).pgdir (s₁.mm src).pgdir v.vmStart v.vmEnd) s₁ with
      | ok u s₂ =>
        rw [Proc.bind_ok (Proc.attempt_ok hrun)]
        obtain ⟨mem, rfl, hpages⟩ := hrange.of_ok hrun
        have hnow := harea.trans hdst hsrc hdirs (.of_pages hinv₁ hdst hw hwv hpages)
        have hrest : ∀ u ∈ vs, u ∈ ((s₁.setMem mem).mm src).mmapList := by
          intro u hu
          rw [hnow.srcAreas]
          exact hvs u (List.mem_cons_of_mem v hu)
        refine (ih hnow.inv hrest).imp ?_ ?_ fun _ h => h
        · intro _ s₃ hlast
          apply (hnow.trans hdst hsrc hdirs hlast).congr
          simp [Vma.Has]
        · rintro _ s₃ ⟨R, hlast⟩
          exact ⟨_, hnow.trans hdst hsrc hdirs hlast⟩
      | err e s₂ =>
        rw [Proc.bind_ok (Proc.attempt_err hrun)]
        obtain ⟨mem, rfl, R, hR, hpages⟩ := hrange.of_err hrun
        exact ⟨_, harea.trans hdst hsrc hdirs (.of_pages hinv₁ hdst hw (fun n hn => hwv n (hR n hn)) hpages)⟩
      | panic q =>
        rw [Proc.bind_panic (Proc.attempt_panic hrun)]
        trivial

/-- **A fork copies the memory**, whether its `copy_range` copies pages or shares them. -/
theorem dupAreas_fork (hi : MemInv own L (s, M)) (hdst : dst ∈ M) (hsrc : src ∈ M) (hne : dst ≠ src) :
    (dupAreas copy dst (s.mm src).pgdir (s.mm src).mmapList.reverse s).Meets
      (fun _ s' => MemInv own L (s', M) ∧ seen (s', M) = Function.update (seen (s, M)) dst fun n =>
        (seen (s, M) src n).or (seen (s, M) dst n))
      (fun _ s' => MemInv own L (s', M) ∧ ∃ child, (∀ n, child n = seen (s, M) dst n ∨
        child n = (seen (s, M) src n).or (seen (s, M) dst n)) ∧ seen (s', M) = Function.update (seen (s, M)) dst child)
      fun _ => True := by
  refine (dupAreas_meets hcopy hdst hsrc hne _ hi.inv fun v hv => List.mem_reverse.mp hv).imp ?_ ?_ fun _ h => h
  · intro _ s' hd
    obtain ⟨hi', child, hseen, hin, hout⟩ := hd.seen hi hdst hsrc
    have hchild : child = fun n => (seen (s, M) src n).or (seen (s, M) dst n) := by
      funext n
      by_cases hn : ∃ v ∈ (s.mm src).mmapList.reverse, v.Has n
      · exact hin n hn
      · -- the source does not map pages outside of its areas
        have hnone : seen (s, M) src n = none := by
          by_cases hlt : n < userPages
          · apply seen_eq_none
            apply Bool.eq_false_iff.mpr
            apply hi.inv.not_mapped hsrc hlt
            intro w hw hwn
            exact hn ⟨w, List.mem_reverse.mpr hw, hwn⟩
          · exact seen_out fun hcon => hlt hcon.2
        rw [hout n hn, hnone]
        simp
    rw [← hchild]
    exact ⟨hi', hseen⟩
  · rintro _ s' ⟨R, hd⟩
    obtain ⟨hi', child, hseen, hin, hout⟩ := hd.seen hi hdst hsrc
    refine ⟨hi', child, fun n => ?_, hseen⟩
    by_cases hn : R n
    · exact Or.inr (hin n hn)
    · exact Or.inl (hout n hn)

end Fork

/-! ## `lab8` -/

section Eager

variable {la : Nat} {perm : Perm} {a b : VmState} {is : List MemEvent}

/-- **One page** is copied. -/
theorem Duplicated.page (h : Sound mem D L) (hdst : dst ∈ D) (hsrc : src ∈ D) (hn : n < userPages)
    (hv : (mem.leaf src n).v = true) (hg : Deepened D dst n mem mem₁) (hp : p ∈ mem₁.free)
    (hr : Remapped D L dst n (pteCreate p perm) (mem₁.copied p (mem.leaf src n).ppn) mem') :
    Duplicated own D L dst src (fun i => i = n) mem mem' := by
  have hsame : mem₁.cells own D = mem.cells own D := hg.cells
  have hunused : (mem.cells own D).Unused p := hsame ▸ (hg.sound h).unused hp
  have hcells : mem'.cells own D = ((mem.cells own D).store p (pageBytes (mem.data (mem.leaf src n).ppn))).put (dst, n) (some p)
      (own (pteCreate p perm)) := by
    rw [hr.cells hdst hn, cells_copied, hsame, hg.data]
    rfl
  have hview : (mem'.cells own D).view = Function.update (mem.cells own D).view (dst, n)
      (some (pageBytes (mem.data (mem.leaf src n).ppn))) := by
    rw [hcells, Cells.view_put, hunused.view_store]
    simp
  refine ⟨hr.sound, fun hx => ?_, ?_, fun k hk => ?_⟩
  · rw [hcells]
    exact (hx.store p _).put_unused (hunused.store p _) _ _
  · rintro i rfl
    rw [hview, view_of_v hsrc hn hv]
    simp
  · rw [hview, Function.update_of_ne]
    rintro rfl
    exact hk ⟨rfl, rfl⟩

/-- **A round of `copy_range`** gets at least one page further, past pages that the source does not map. -/
theorem copyRound_duplicates (own : Pte → Bool) (h : Sound mem D L) (hdst : dst ∈ D) (hsrc : src ∈ D) (hla : la < userTop)
    (hal : la % pgsize = 0) : (copyRound dst src la mem).Meets
      (fun next mem' => la + pgsize ≤ next ∧ next % pgsize = 0 ∧ Duplicated own D L dst src (fun n => n = la / pgsize) mem mem' ∧
        ∀ n, la ≤ n * pgsize → n * pgsize < next → n ≠ la / pgsize → (mem.cells own D).view (src, n) = none)
      (fun _ mem' => Duplicated own D L dst src (fun _ => False) mem mem') fun _ => True := by
  have hstep : (la + pgsize) % pgsize = 0 := by rw [Nat.add_mod_right, hal]
  have hpast : ∀ n, la ≤ n * pgsize → n * pgsize < la + pgsize → n ≠ la / pgsize → (mem.cells own D).view (src, n) = none :=
    fun n hle hlt hne => absurd (page_of_round hal hle hlt) hne
  rcases @copyRound_spec mem D L dst la src h hdst hla with ⟨hnone, hrun⟩ | ⟨hv, hrun⟩ | ⟨hv, hrest⟩
  · rw [hrun]
    refine ⟨le_nextTable hal, nextTable_aligned la, .refl h ?_, fun n hle hlt _ => view_skipped hnone (Nat.div_le_of_le_mul ?_) hlt⟩
    · rintro n rfl
      exact view_skipped hnone (Nat.le_refl _) (page_lt_nextTable hal)
    · rw [Nat.mul_comm]
      exact hle
  · rw [hrun]
    refine ⟨Nat.le_refl _, hstep, .refl h ?_, hpast⟩
    rintro n rfl
    exact view_of_not_v hv
  · rcases hrest with ⟨mem₁, hrun, hg, -⟩ | ⟨hrun, -⟩ | ⟨mem₁, p, mem', hg, hp, hrun, hr⟩
    · rw [hrun]
      have hsame : mem₁.cells own D = mem.cells own D := hg.cells
      exact .of_view (hg.sound h) (fun hx => hsame ▸ hx) (by rw [hsame])
    · rw [hrun]
      trivial
    · rw [hrun]
      exact ⟨Nat.le_refl _, hstep, .page h hdst hsrc (page_lt hla) hv hg hp hr, hpast⟩

/-- **`copy_range`.** -/
theorem copyRange_duplicates (own : Pte → Bool) : CopiesRange own copyRange := by
  intro mem D L dst src start stop h hdst hsrc hne
  refine ((checkRange_meets mem start stop).imp (fun _ _ h => h) (fun _ _ h => h.elim) fun _ _ => trivial).bind ?_
  rintro _ mem₀ ⟨heq, hal, -, -, hlt, htop⟩
  obtain rfl : mem = mem₀ := heq.symm
  -- the invariant of the loop: the pages below the cursor have been copied
  have hloop := @rangeLoop_meets stop (copyRound dst src)
    (fun la mem' => start ≤ la ∧ la % pgsize = 0 ∧
      Duplicated own D L dst src (fun n => InRange start stop n ∧ n * pgsize < la) mem mem')
    (fun _ mem' => ∃ R : Nat → Prop, (∀ n, R n → InRange start stop n) ∧ Duplicated own D L dst src R mem mem') (fun _ => True) ?_
    (rangeFuel start stop) start mem (Nat.lt_succ_self _) hlt
    ⟨Nat.le_refl _, hal, .refl h fun n hn => absurd hn.1.1 (Nat.not_le.mpr hn.2)⟩
  · refine hloop.imp ?_ (fun _ _ h => h) fun _ h => h
    rintro _ mem' ⟨next, hnext, -, -, hdup⟩
    apply hdup.mono
    · exact fun n hn => hn.1
    · exact fun n hn hno => absurd ⟨hn, Nat.lt_of_lt_of_le hn.2 hnext⟩ hno
  · rintro la mem₁ hla ⟨hlo, hal₁, hdup⟩
    refine (copyRound_duplicates own hdup.sound hdst hsrc (Nat.lt_of_lt_of_le hla htop) hal₁).imp ?_ ?_ fun _ h => h
    · rintro next mem₂ ⟨hnext, hal₂, hround, hpast⟩
      have hcur : la / pgsize * pgsize = la := Nat.div_mul_cancel (Nat.dvd_of_mod_eq_zero hal₁)
      refine ⟨hnext, by omega, hal₂, (hdup.trans hne hround).mono ?_ ?_⟩
      · rintro n (⟨hin, hbelow⟩ | rfl)
        · exact ⟨hin, by omega⟩
        · rw [InRange, hcur]
          exact ⟨⟨hlo, hla⟩, Nat.lt_of_lt_of_le (Nat.lt_add_of_pos_right (by decide)) hnext⟩
      · rintro n ⟨hin, hbelow⟩ hno
        rw [← hdup.src_view hne n]
        apply hpast n ?_ hbelow
        · exact fun heq => hno (Or.inr heq)
        · by_contra hlow
          exact hno (Or.inl ⟨hin, Nat.not_le.mp hlow⟩)
    · intro _ mem₂ hround
      refine ⟨_, ?_, hdup.trans hne hround⟩
      rintro n (hn | hn)
      · exact hn.1
      · exact hn.elim

/-- **A fork of `lab8` copies the memory.** -/
theorem eager_implements (hown : ∀ e : Pte, e.perm.w = true → own e = true) : Implements own dupMmap none where
  owner := hown
  fork := by
    intro s M L dst src hi hdst hsrc hne
    rw [dupMmap, Proc.get_bind, dupVmas_eq]
    exact dupAreas_fork (copyRange_duplicates own) hi hdst hsrc hne
  fault := by
    intro s s' M L m errorCode addr code serve hserve
    cases hserve

/-- Page faults are not served, so there is nothing to be said about them. -/
theorem EagerStep.served {i : MemEvent} (h : EagerStep a i b) : i.Served a := by
  cases h with
  | fault hm hserve hrun => cases hserve
  | _ => trivial

/-- **Every process of `lab8` has a memory of its own.** In every run from the start, no page belongs to two processes or is
mapped twice, and a fork copies the memory. -/
theorem eager_private (hstart : VmInit a) (hrun : Traced EagerStep a is b) :
    Traced Memories.Step (fun _ _ => none) is (seen b) ∧ ∀ m ∈ b.2, ∀ m' ∈ b.2, ∀ n n', n < userPages → n' < userPages →
      (b.1.pte m n).v = true → (b.1.pte m' n').v = true → (b.1.pte m n).ppn = (b.1.pte m' n').ppn → m = m' ∧ n = n' := by
  have hserved : Traced (fun a i b => i.Served a ∧ EagerStep a i b) a is b := hrun.mono fun _ _ _ hs => ⟨hs.served, hs⟩
  obtain ⟨⟨L, hi⟩, htraced⟩ := (eager_implements fun _ _ => rfl).run (memInv_init (fun _ => true) hstart) hserved
  rw [seen_init hstart] at htraced
  refine ⟨htraced, fun m hm m' hm' n n' hn hn' hv hv' hppn => ?_⟩
  have hcell : (b.1.cells (fun _ => true) b.2).cell ((b.1.mm m).pgdir, n) = some (b.1.pte m n).ppn := by
    rw [Vm.cells_cell hm hn, target, if_pos hv]
  have hcell' : (b.1.cells (fun _ => true) b.2).cell ((b.1.mm m').pgdir, n') = some (b.1.pte m n).ppn := by
    rw [Vm.cells_cell hm' hn', target, if_pos hv', hppn]
  have hplace := hi.exclusive _ _ hcell (Vm.cells_own hm hn) _ hcell'
  exact ⟨hi.inv.inj m hm m' hm' (Prod.mk.inj hplace).1.symm, (Prod.mk.inj hplace).2.symm⟩

/-- The child writes to its page, and the parent does not see it. Then the parent ends, and the child keeps the page. -/
theorem eager_private_fork : ∃ b, Traced Memories.Step (fun _ _ => none)
    [.create, .map 0, .alloc 0 0x200000 (some (pageBytes fun _ => 7)), .create, .fork 2 0 true, .store 2 0x200000 9,
      .load 0 0x200000 7, .exit 0, .load 2 0x200000 9] (seen b) := by
  have htest : (dupMmap 2 0 pairVm).test (fun _ s => decide (ReadsApart s)) = true := by decide +kernel
  obtain ⟨_, s, hfork, hgood⟩ := Outcome.exists_of_test htest
  have hapart : ReadsApart s := of_decide_eq_true hgood
  obtain ⟨b, hrest⟩ := hapart.traced
  have hrun := @pairVm_reached s dupMmap none _ b hfork hrest
  exact ⟨b, (eager_private ⟨rfl, fun _ => rfl⟩ (hrun.mono fun _ _ _ hs => hs.2)).1⟩

end Eager

end Ucore
