import Ucore.Mm.Correctness.CowFork
import Ucore.Process.CowIcode

/-!
# `Process.Correctness.CowLoad` — the pages that `load_icode` maps

A segment or a stack makes one area, and maps pages of this area that have not been mapped before. The permissions are
`Created` from the flags of the area.
-/

namespace Ucore.Cow

open Ucore.PageMem

variable {s s' s₀ s₁ s₂ : Vm} {M : Finset Nat} {L E E' : Nat → Prop} {m m' n addr la len : Nat} {v : Vma} {flags : VmFlags} {perm : Perm}
  {ph : ProgHdr} {x y : LoadPos} {binary : Bytes}

/-- The permissions with which a page is created in an area. Only an area for writing may have others than `do_pgfault` gives. -/
def Created (flags : VmFlags) (perm : Perm) : Prop := perm.u = true ∧ (flags.write = false → perm = missingPerm flags)

theorem created_missing (flags : VmFlags) : Created flags (missingPerm flags) := ⟨rfl, fun _ => rfl⟩

theorem created_seg (ph : ProgHdr) : Created ph.vmFlags (segPerm ph) := by
  refine ⟨rfl, fun hw => ?_⟩
  rw [segPerm, missingPerm, hw, Bool.or_false]

/-- **The effect of loading** on the page table entries: those of new pages of `m` are written. -/
structure Loaded (M : Finset Nat) (L : Nat → Prop) (m : Nat) (s s' : Vm) : Prop where
  inv : s'.Inv M L
  wider : Vm.Wider M s s'
  pages : ∀ m' ∈ M, ∀ n, n < userPages → s'.pte m' n = s.pte m' n ∨ m' = m ∧ ¬ (s.pte m n).v = true ∧
    ∃ v ∈ (s'.mm m).mmapList, v.Has n ∧ ∃ p perm, s'.pte m n = pteCreate p perm ∧ Created v.vmFlags perm

namespace Loaded

/-- No page has changed. -/
theorem of_areas (h : s'.Inv M L) (hmem : s'.mem = s.mem) (hw : Vm.Wider M s s') : Loaded M L m s s' where
  inv := h
  wider := hw
  pages m' hm' _ _ := .inl (Vm.pte_congr hmem (hw.pgdir m' hm'))

theorem trans (h : Loaded M L m s s₁) (h' : Loaded M L m s₁ s₂) (hm : m ∈ M) : Loaded M L m s s₂ where
  inv := h'.inv
  wider := h.wider.trans h'.wider
  pages := by
    intro m' hm' n hn
    rcases h'.pages m' hm' n hn with heq | ⟨rfl, hnew, hpage⟩
    · rw [heq]
      rcases h.pages m' hm' n hn with hold | ⟨rfl, hnew, v, hv, hhas, hpage⟩
      · exact .inl hold
      · exact .inr ⟨rfl, hnew, v, h'.wider.areas m' hm' v hv, hhas, heq ▸ hpage⟩
    · refine .inr ⟨rfl, fun hv => hnew ?_, hpage⟩
      rcases h.pages m' hm n hn with hold | ⟨-, hold, -⟩
      · rw [hold]
        exact hv
      · exact absurd hv hold

end Loaded

/-! ## `mm_map` -/

/-- `mm_map` leaves the pages alone, and keeps the areas. -/
theorem mmMapRange_areas (s : Vm) (M : Finset Nat) (m start stop : Nat) (flags : VmFlags) :
    (mmMapRange m start stop flags s).Meets (fun _ s' => s'.mem = s.mem ∧ Vm.Wider M s s')
      (fun _ s' => s'.mem = s.mem ∧ Vm.Wider M s s') fun _ => True := by
  have hinsert : ∀ s₁ : Vm, s₁.mem = s.mem → Vm.Wider M s s₁ →
      (mmMapInsert m start stop flags s₁).Meets (fun _ s' => s'.mem = s.mem ∧ Vm.Wider M s s')
        (fun _ s' => s'.mem = s.mem ∧ Vm.Wider M s s') fun _ => True := by
    intro s₁ hmem hw
    have hcreate : ∀ s₂ : Vm, s₂.mm = s₁.mm → Vm.Wider M s s₂ := by
      intro s₂ hmm
      refine hw.trans ⟨fun m' _ => by rw [hmm], fun m' _ v hv => ?_⟩
      rw [hmm]
      exact hv
    rw [mmMapInsert]
    rcases vmaCreate_cases start stop flags s₁ with hc | ⟨p, _, hc⟩
    · rw [Proc.bind_ok hc]
      exact ⟨hmem, hcreate _ rfl⟩
    · rw [Proc.bind_ok hc]
      refine (insertVmaStruct_meets m _ _).imp ?_ (fun _ _ hh => hh.elim) fun _ _ => trivial
      rintro _ _ ⟨rfl, -⟩
      refine ⟨hmem, (hcreate (s₁.ktake p) rfl).trans ?_⟩
      exact .setMm rfl fun v hv => Mm.mem_insert.mpr (.inr hv)
  rw [mmMapRange]
  split
  · exact ⟨rfl, .refl s⟩
  · obtain ⟨hlist, hpgdir, -⟩ := (s.mm m).found_same start
    have hw : Vm.Wider M s (s.setMm m ((s.mm m).found start)) := .setMm hpgdir fun v hv => hlist.symm ▸ hv
    rw [Proc.bind_ok (findVma_run m _ s)]
    cases (s.mm m).findVma start with
    | none => exact hinsert _ rfl hw
    | some v =>
      dsimp only
      split
      · exact ⟨rfl, hw⟩
      · exact hinsert _ rfl hw

/-! ## The loops -/

theorem inVmm_meets {α : Type} {c : VmM α} {Q : α → Vm → Prop} {E : Int → Vm → Prop} {P : MmPanic → Prop}
    (h : (c s).Meets Q E P) : (inVmm c s).Meets Q E fun _ => True := by
  unfold inVmm Proc.within
  dsimp only [id]
  cases hc : c s with
  | ok a s' => exact h.of_ok hc
  | err e s' => exact h.of_err hc
  | panic p => trivial

/-- **In the middle of an area**: those of its pages that are in `E` are not mapped yet. -/
structure Filling (M : Finset Nat) (L : Nat → Prop) (m : Nat) (v : Vma) (E : Nat → Prop) (s₀ s : Vm) : Prop where
  loaded : Loaded M L m s₀ s
  area : v ∈ (s.mm m).mmapList
  empty : ∀ n, n < userPages → v.Has n → E n → ¬ (s.pte m n).v = true

/-- A page of the area is allocated. -/
theorem Filling.alloc (h : Filling M L m v E s₀ s) (hm : m ∈ M) (hin : v.Contains la) (hE : E (la / pgsize))
    (hnext : ∀ n, E' n → E n ∧ n ≠ la / pgsize) (hperm : Created v.vmFlags perm) :
    (inVmm (inMem (pgdirAllocPage (s₀.mm m).pgdir la perm)) s).Meets (fun _ s' => Filling M L m v E' s₀ s')
      (fun _ _ => False) fun _ => True := by
  have hinv := h.loaded.inv
  have hok := (hinv.wf m hm).ok v h.area
  have hn := page_lt (hok.lt_userTop hin)
  have hnew := h.empty _ hn (hok.has hin) hE
  rw [← h.loaded.wider.pgdir m hm]
  refine inVmm_meets (P := fun _ => False) ((inMem_meets (pgdirAllocPage_entry hinv.sound (Vm.mem_dirs hm)
    (hok.lt_userTop hin) perm)).imp ?_ ?_ fun _ hp => hp)
  · rintro page _ ⟨mem, rfl, hmapped, hentry⟩
    have hinv' : (s.setMem mem).Inv M L := by
      refine hinv.setMem hm hmapped ?_
      rintro n _ rfl
      exact ⟨v, h.area, hok.has hin⟩
    have hsame : ∀ m' ∈ M, ∀ n, n < userPages → ¬ (m' = m ∧ n = la / pgsize) → (s.setMem mem).pte m' n = s.pte m' n := by
      intro m' hm' n hn' hno
      refine hmapped.leaf _ (Vm.mem_dirs hm') n hn' fun hcon => hno ⟨?_, hcon.2⟩
      exact hinv.inj m' hm' m hm hcon.1
    have hstep : Loaded M L m s (s.setMem mem) := by
      refine ⟨hinv', .setMem s mem, fun m' hm' n hn' => ?_⟩
      by_cases hthis : m' = m ∧ n = la / pgsize
      · obtain ⟨rfl, rfl⟩ := hthis
        cases page with
        | none => exact .inl hentry
        | some p => exact .inr ⟨rfl, hnew, v, h.area, hok.has hin, p, perm, hentry, hperm⟩
      · exact .inl (hsame m' hm' n hn' hthis)
    refine ⟨h.loaded.trans hstep hm, h.area, fun n hn' hhas hE' => ?_⟩
    obtain ⟨hEn, hne⟩ := hnext n hE'
    rw [hsame m hm n hn' fun hcon => hne hcon.2]
    exact h.empty n hn' hhas hEn
  · rintro _ _ ⟨_, _, hfalse⟩
    exact hfalse

/-- Bytes of a page are written. -/
theorem Filling.fill (h : Filling M L m v E s₀ s) (hm : m ∈ M) (page off : Nat) (src : Bytes) (start len : Nat) :
    ∃ s', fillPage page off src start len s = .ok () s' ∧ Filling M L m v E s₀ s' := by
  refine ⟨_, rfl, ?_⟩
  have hsound : Sound (s.mem.setData page (memcpy (s.mem.data page) off src start len)) (s.dirs M) L :=
    h.loaded.inv.sound.of_free rfl (fun _ _ _ => rfl) fun _ hq => .inl hq
  have hinv : (s.setMem (s.mem.setData page (memcpy (s.mem.data page) off src start len))).Inv M L :=
    h.loaded.inv.remem hsound fun _ _ _ _ hmaps => .inl hmaps
  have hstep : Loaded M L m s (s.setMem (s.mem.setData page (memcpy (s.mem.data page) off src start len))) :=
    ⟨hinv, .setMem s _, fun _ _ _ _ => .inl rfl⟩
  exact ⟨h.loaded.trans hstep hm, h.area, h.empty⟩

/-- A round ends with the page or with the section. -/
theorem next_start {start la stop : Nat} (hle : la ≤ start) (hlt : start < stop)
    (hnext : start + sizeIn (start - la) (la + pgsize) stop < stop) :
    la + pgsize ≤ start + sizeIn (start - la) (la + pgsize) stop := by
  unfold sizeIn at hnext ⊢
  split
  · rename_i hlast
    rw [if_pos hlast] at hnext
    omega
  · omega

/-- **In the middle of a section**: the pages from `la` on are missing, and `la` gets to `start`. -/
structure LoadPos.At (M : Finset Nat) (L : Nat → Prop) (m : Nat) (v : Vma) (s₀ : Vm) (x : LoadPos) (s : Vm) : Prop where
  filling : Filling M L m v (fun n => x.la ≤ n * pgsize) s₀ s
  low : v.vmStart ≤ x.la
  aligned : x.la % pgsize = 0

/-- The page at `la`. -/
theorem LoadPos.At.alloc (h : x.At M L m v s₀ s) (hm : m ∈ M) (hlt : x.la < v.vmEnd) (hflags : v.vmFlags = ph.vmFlags) :
    (inVmm (inMem (pgdirAllocPage (s₀.mm m).pgdir x.la (segPerm ph))) s).Meets
      (fun _ s' => ∀ y : LoadPos, y.la = x.la + pgsize → y.At M L m v s₀ s') (fun _ _ => False) fun _ => True := by
  have hcur : x.la / pgsize * pgsize = x.la := Nat.div_mul_cancel (Nat.dvd_of_mod_eq_zero h.aligned)
  have hnext : ∀ n, x.la + pgsize ≤ n * pgsize → x.la ≤ n * pgsize ∧ n ≠ x.la / pgsize := by
    intro n hle
    have hlt' : x.la < n * pgsize := Nat.lt_of_lt_of_le (Nat.lt_add_of_pos_right (by decide)) hle
    refine ⟨Nat.le_of_lt hlt', ?_⟩
    rintro rfl
    omega
  have halloc := h.filling.alloc hm ⟨h.low, hlt⟩ hcur.ge hnext (hflags ▸ created_seg ph)
  refine halloc.imp (fun _ s' hfilling y hy => ?_) (fun _ _ hh => hh) fun _ hp => hp
  refine ⟨?_, ?_, ?_⟩
  · rw [hy]
    exact hfilling
  · rw [hy]
    exact Nat.le_add_right_of_le h.low
  · rw [hy, Nat.add_mod_right, h.aligned]

theorem LoadPos.At.fill (h : x.At M L m v s₀ s) (hm : m ∈ M) (page off : Nat) (src : Bytes) (start len : Nat) :
    ∃ s', fillPage page off src start len s = .ok () s' ∧ x.At M L m v s₀ s' := by
  obtain ⟨s', hrun, hfilling⟩ := h.filling.fill hm page off src start len
  exact ⟨s', hrun, hfilling, h.low, h.aligned⟩

/-- **TEXT and DATA.** -/
theorem loadText_meets (hm : m ∈ M) (hstop : ph.stop ≤ v.vmEnd) (hflags : v.vmFlags = ph.vmFlags) (fuel : Nat) :
    ∀ {x : LoadPos} {s : Vm}, x.At M L m v s₀ s → (x.start < ph.stop → x.la ≤ x.start) →
    (loadText binary ph (s₀.mm m).pgdir fuel x s).Meets (fun y s' => y.At M L m v s₀ s') (fun _ s' => Loaded M L m s₀ s')
      fun _ => True := by
  induction fuel with
  | zero => exact fun _ _ => trivial
  | succ fuel ih =>
    intro x s h hpos
    rw [loadText]
    by_cases hlt : x.start < ph.stop
    · rw [if_pos hlt]
      have hle := hpos hlt
      have halloc := h.alloc hm (Nat.lt_of_le_of_lt hle (Nat.lt_of_lt_of_le hlt hstop)) hflags
      refine (halloc.imp (fun _ _ hh => hh) (fun _ _ hh => hh.elim) fun _ hp => hp).bind ?_
      rintro (_ | page) s₁ h₁
      · exact (h₁ { x with la := x.la + pgsize } rfl).filling.loaded
      · dsimp only
        generalize hsize : sizeIn (x.start - x.la) (x.la + pgsize) ph.stop = size
        obtain ⟨s₂, hfill, h₂⟩ := (h₁ { start := x.start + size, la := x.la + pgsize, src := x.src + size, page := page } rfl).fill
          hm page (x.start - x.la) binary x.src size
        rw [Proc.bind_ok hfill]
        apply ih h₂
        rw [← hsize]
        exact next_start hle hlt
    · rw [if_neg hlt]
      exact h

/-- **BSS**: the second loop. -/
theorem clearPages_meets (hm : m ∈ M) (hstop : ph.stopMem ≤ v.vmEnd) (hflags : v.vmFlags = ph.vmFlags) (fuel : Nat) :
    ∀ {x : LoadPos} {s : Vm}, x.At M L m v s₀ s → (x.start < ph.stopMem → x.la ≤ x.start) →
    (clearPages ph (s₀.mm m).pgdir fuel x s).Meets (fun _ s' => Loaded M L m s₀ s') (fun _ s' => Loaded M L m s₀ s')
      fun _ => True := by
  induction fuel with
  | zero => exact fun _ _ => trivial
  | succ fuel ih =>
    intro x s h hpos
    rw [clearPages]
    by_cases hlt : x.start < ph.stopMem
    · rw [if_pos hlt]
      have hle := hpos hlt
      have halloc := h.alloc hm (Nat.lt_of_le_of_lt hle (Nat.lt_of_lt_of_le hlt hstop)) hflags
      refine (halloc.imp (fun _ _ hh => hh) (fun _ _ hh => hh.elim) fun _ hp => hp).bind ?_
      rintro (_ | page) s₁ h₁
      · exact (h₁ { x with la := x.la + pgsize } rfl).filling.loaded
      · dsimp only
        generalize hsize : sizeIn (x.start - x.la) (x.la + pgsize) ph.stopMem = size
        obtain ⟨s₂, hfill, h₂⟩ := (h₁ { x with start := x.start + size, la := x.la + pgsize, page := page } rfl).fill
          hm page (x.start - x.la) (fun _ => 0) 0 size
        rw [Proc.bind_ok hfill]
        apply ih h₂
        rw [← hsize]
        exact next_start hle hlt
    · rw [if_neg hlt]
      exact h.filling.loaded

/-- **BSS.** -/
theorem loadBss_meets (hm : m ∈ M) (hstop : ph.stopMem ≤ v.vmEnd) (hflags : v.vmFlags = ph.vmFlags) (h : x.At M L m v s₀ s) :
    (loadBss ph (s₀.mm m).pgdir x s).Meets (fun _ s' => Loaded M L m s₀ s') (fun _ s' => Loaded M L m s₀ s') fun _ => True := by
  rw [loadBss]
  by_cases hlt : x.start < x.la
  · rw [if_pos hlt]
    by_cases hend : x.start = ph.stopMem
    · rw [if_pos hend]
      exact h.filling.loaded
    · rw [if_neg hend]
      dsimp only
      generalize sizeIn (x.start + pgsize - x.la) x.la ph.stopMem = size
      obtain ⟨s₁, hfill, h₁⟩ := h.fill hm x.page (x.start + pgsize - x.la) (fun _ => 0) 0 size
      rw [Proc.bind_ok hfill]
      by_cases hassert : ph.stopMem < x.la ∧ x.start + size = ph.stopMem ∨ ph.stopMem ≥ x.la ∧ x.start + size = x.la
      · rw [Proc.check_bind_pos hassert]
        apply clearPages_meets hm hstop hflags _ (x := { x with start := x.start + size }) ⟨h₁.filling, h₁.low, h₁.aligned⟩
        intro hmore
        have hmore' : x.start + size < ph.stopMem := hmore
        show x.la ≤ x.start + size
        omega
      · rw [Proc.check_bind_neg hassert]
        trivial
  · rw [if_neg hlt]
    exact clearPages_meets hm hstop hflags _ h fun _ => Nat.le_of_not_lt hlt

/-! ## A segment, and the stack -/

/-- If `mm_map` makes the area, the part of the segment that is in the file ends inside of it. -/
def FileFits (ph : ProgHdr) : Prop :=
  UserAccess (mapStart ph.pVa) (mapEnd ph.pVa ph.pMemsz) → ph.pFilesz ≤ ph.pMemsz → ph.stop ≤ mapEnd ph.pVa ph.pMemsz

/-- This is so for every segment that does not wrap. -/
theorem fileFits_of_sum (hsum : ph.pVa + ph.pMemsz < 2 ^ 64) : FileFits ph := by
  intro hac hle
  rw [mapEnd_user hsum (.inl hac)]
  have hfile : ph.stop = ph.pVa + ph.pFilesz := Nat.mod_eq_of_lt (by omega)
  have hup : ph.pVa + ph.pMemsz ≤ mapStop ph.pVa ph.pMemsz := by
    show _ ≤ ph.pVa + ph.pMemsz + 4096 - 1 - (ph.pVa + ph.pMemsz + 4096 - 1) % 4096
    omega
  omega

/-- The end in memory is rounded up to that of the area. -/
theorem stopMem_le (hac : UserAccess (mapStart ph.pVa) (mapEnd ph.pVa ph.pMemsz)) : ph.stopMem ≤ mapEnd ph.pVa ph.pMemsz := by
  have hpos : 0 < mapEnd ph.pVa ph.pMemsz := Nat.lt_of_le_of_lt (Nat.zero_le _) hac.2.1
  have hlt : ph.stopMem < 2 ^ 64 := Nat.mod_lt _ (by decide)
  have hend : mapEnd ph.pVa ph.pMemsz = roundup ph.stopMem pgsize := rfl
  rw [hend] at hpos ⊢
  generalize ph.stopMem = stop at *
  have hpos' : 0 < (stop + 4096 - 1) % 2 ^ 64 - (stop + 4096 - 1) % 2 ^ 64 % 4096 := hpos
  show stop ≤ (stop + 4096 - 1) % 2 ^ 64 - (stop + 4096 - 1) % 2 ^ 64 % 4096
  omega

/-- **`mm_map`**: the pages of the new area are still missing. -/
theorem mmMap_meets (h : s.Inv M L) (hm : m ∈ M) (addr len : Nat) (flags : VmFlags) :
    (inVmm (mmMap m addr len flags) s).Meets
      (fun _ s' => UserAccess (mapStart addr) (mapEnd addr len) ∧ (s'.mm m).pgdir = (s.mm m).pgdir ∧
        ∃ v : Vma, v.vmStart = mapStart addr ∧ v.vmEnd = mapEnd addr len ∧ v.vmFlags = flags ∧
          Filling M L m v (fun _ => True) s s')
      (fun _ s' => Loaded M L m s s') fun _ => True := by
  have hinv := mmMap_inv h m addr len flags
  have hareas := mmMapRange_areas s M m (mapStart addr) (mapEnd addr len) flags
  refine inVmm_meets (P := fun _ => True) ?_
  cases hrun : mmMap m addr len flags s with
  | ok u s' =>
    obtain ⟨hfree, hmore⟩ := mmMap_ok (h.wf m hm).toSorted hrun
    obtain ⟨v, l₁, l₂, hstart, hend, hflags, -, hnew⟩ := hmore.list
    have hmem : v ∈ (s'.mm m).mmapList := by
      rw [hnew]
      exact List.mem_append_right l₁ List.mem_cons_self
    refine ⟨hfree.1, hmore.pgdir, v, hstart, hend, hflags, .of_areas (hinv.of_ok hrun) hmore.mem (hmore.wider M), hmem, ?_⟩
    intro n hn hhas _
    rw [Vma.Has, hstart, hend] at hhas
    exact hmore.not_mapped h hm hfree hn hhas
  | err e s' =>
    obtain ⟨hmem, hw⟩ := hareas.of_err hrun
    exact .of_areas (hinv.of_err hrun) hmem hw
  | panic p => trivial

/-- **A segment.** -/
theorem loadSegment_meets (h : s.Inv M L) (hm : m ∈ M) (hfits : FileFits ph) :
    (loadSegment binary m ph s).Meets (fun _ s' => Loaded M L m s s') (fun _ s' => Loaded M L m s s') fun _ => True := by
  rw [loadSegment]
  by_cases hsize : ph.pFilesz > ph.pMemsz
  · rw [if_pos hsize]
    exact .of_areas h rfl (.refl s)
  · rw [if_neg hsize]
    refine (mmMap_meets h hm ph.pVa ph.pMemsz ph.vmFlags).bind ?_
    rintro _ s₁ ⟨hac, hpgdir, v, hstart, hend, hflags, hfilling⟩
    have hstop : ph.stop ≤ v.vmEnd := hend ▸ hfits hac (Nat.le_of_not_lt hsize)
    have hstopMem : ph.stopMem ≤ v.vmEnd := hend ▸ stopMem_le hac
    rw [Proc.get_bind, hpgdir]
    have hat : LoadPos.At M L m v s { start := ph.pVa, la := rounddown ph.pVa pgsize, src := ph.pOffset, page := 0 } s₁ :=
      ⟨⟨hfilling.loaded, hfilling.area, fun n hn hhas _ => hfilling.empty n hn hhas trivial⟩, hstart.le, rounddown_aligned ph.pVa⟩
    refine (loadText_meets hm hstop hflags _ hat fun _ => Nat.sub_le _ _).bind fun x s₂ hx => ?_
    exact loadBss_meets hm hstopMem hflags hx

/-- The pages below the next one are below this one. -/
theorem below_page {top p k : Nat} (hp : 0 < p) (hal : top % p = 0) (htop : 257 * p ≤ top) (hk : k ≤ 256)
    (hle : n * p ≤ top - (k + 1) * p) : n * p ≤ top - k * p ∧ n ≠ (top - k * p) / p := by
  have hmul : (k + 1) * p = k * p + p := Nat.succ_mul k p
  have hkp : k * p ≤ 256 * p := Nat.mul_le_mul_right p hk
  have hdiv : (top - k * p) / p * p = top - k * p :=
    Nat.div_mul_cancel (Nat.dvd_sub (Nat.dvd_of_mod_eq_zero hal) (Nat.dvd_mul_left p k))
  refine ⟨by omega, ?_⟩
  rintro rfl
  rw [hdiv] at hle
  omega

/-- A page of the stack, and those below it. -/
theorem stackPage_meets {k : Nat} (hk : 0 < k ∧ k ≤ 256) (hm : m ∈ M) (hstart : v.vmStart = ustackTop - ustackSize)
    (hend : v.vmEnd = ustackTop) (hw : v.vmFlags.write = true)
    (h : Filling M L m v (fun n => n * pgsize ≤ ustackTop - k * pgsize) s₀ s) :
    (stackPage (s₀.mm m).pgdir k s).Meets
      (fun _ s' => Filling M L m v (fun n => n * pgsize ≤ ustackTop - (k + 1) * pgsize) s₀ s')
      (fun _ s' => Loaded M L m s₀ s') fun _ => True := by
  have hin : v.Contains (ustackTop - k * pgsize) := by
    constructor
    · rw [hstart]
      show 0x80000000 - 256 * 4096 ≤ 0x80000000 - k * 4096
      omega
    · rw [hend]
      show 0x80000000 - k * 4096 < 0x80000000
      omega
  have hpage : (ustackTop - k * pgsize) / pgsize * pgsize ≤ ustackTop - k * pgsize := Nat.div_mul_le_self _ _
  have hnext : ∀ n, n * pgsize ≤ ustackTop - (k + 1) * pgsize →
      n * pgsize ≤ ustackTop - k * pgsize ∧ n ≠ (ustackTop - k * pgsize) / pgsize := by
    intro n hle
    exact below_page (by decide) (by decide) (by decide) hk.2 hle
  have hperm : Created v.vmFlags pteUser := by
    refine ⟨rfl, fun hno => ?_⟩
    rw [hw] at hno
    cases hno
  rw [stackPage]
  refine ((h.alloc hm hin hpage hnext hperm).imp (fun _ _ hh => hh) (fun _ _ hh => hh.elim) fun _ hp => hp).bind ?_
  rintro (_ | page) s₁ h₁
  · trivial
  · exact h₁

/-- **The stack.** -/
theorem loadStack_meets (h : s.Inv M L) (hm : m ∈ M) :
    (loadStack m s).Meets (fun _ s' => Loaded M L m s s') (fun _ s' => Loaded M L m s s') fun _ => True := by
  rw [loadStack]
  refine (mmMap_meets h hm _ _ _).bind ?_
  rintro _ s₁ ⟨-, hpgdir, v, hstart, hend, hflags, hfilling⟩
  have hstart' : v.vmStart = ustackTop - ustackSize := hstart.trans (by decide)
  have hend' : v.vmEnd = ustackTop := hend.trans (by decide)
  have hw : v.vmFlags.write = true := by rw [hflags]
  have h₁ : Filling M L m v (fun n => n * pgsize ≤ ustackTop - 1 * pgsize) s s₁ :=
    ⟨hfilling.loaded, hfilling.area, fun n hn hhas _ => hfilling.empty n hn hhas trivial⟩
  rw [Proc.get_bind, hpgdir]
  refine (stackPage_meets (by decide) hm hstart' hend' hw h₁).bind fun _ s₂ h₂ => ?_
  refine (stackPage_meets (by decide) hm hstart' hend' hw h₂).bind fun _ s₃ h₃ => ?_
  refine (stackPage_meets (by decide) hm hstart' hend' hw h₃).bind fun _ s₄ h₄ => ?_
  exact (stackPage_meets (by decide) hm hstart' hend' hw h₄).imp (fun _ _ hh => hh.loaded) (fun _ _ hh => hh) fun _ hp => hp

end Ucore.Cow
